import LiveTree.Proofs.Tree.Navigation

/-! Kept wrappers over time. In every forest that a program can come to, a wrapper is kept in one
place only, and a wrapper that has a parent is kept by it. So a way down along kept wrappers lasts
as long as no wrapper on it comes to stand on another node than its parent has: asking for children,
anywhere in the forest, forgets only wrappers whose nodes have moved, and what these keep. -/

namespace LiveTree

namespace Forest

variable {f g : Forest} {v w c d top : WrapperRef} {key : String} {p : Path} {n : ℕ}

/-! ### The same but for what is kept -/

/-- Whether a wrapper is the same in two forests, except for what it keeps. -/
def Unmoved (f g : Forest) (v : WrapperRef) : Prop :=
  ∃ cache, g.wrapper v = { f.wrapper v with cache }

namespace Unmoved

theorem refl (f : Forest) (v : WrapperRef) : Unmoved f f v := ⟨_, rfl⟩

theorem trans {h : Forest} (hfg : Unmoved f g v) (hgh : Unmoved g h v) : Unmoved f h v := by
  obtain ⟨_, e⟩ := hfg
  obtain ⟨cache, e'⟩ := hgh
  exact ⟨cache, by rw [e', e]⟩

theorem node (h : Unmoved f g v) : (g.wrapper v).node = (f.wrapper v).node := by
  obtain ⟨_, e⟩ := h
  rw [e]

theorem parent (h : Unmoved f g v) : (g.wrapper v).parent = (f.wrapper v).parent := by
  obtain ⟨_, e⟩ := h
  rw [e]

theorem key_eq (h : Unmoved f g v) : (g.wrapper v).key = (f.wrapper v).key := by
  obtain ⟨_, e⟩ := h
  rw [e]

theorem registry (h : Unmoved f g v) : (g.wrapper v).registry = (f.wrapper v).registry := by
  obtain ⟨_, e⟩ := h
  rw [e]

theorem destroyed (h : Unmoved f g v) : (g.wrapper v).destroyed = (f.wrapper v).destroyed := by
  obtain ⟨_, e⟩ := h
  rw [e]

theorem nodeAt (h : Unmoved f g v) (hs : g.store = f.store) : g.nodeAt v = f.nodeAt v := by
  rw [Forest.nodeAt, Forest.nodeAt, hs, h.node]

end Unmoved

/-- The forest in which the wrapper of a child is kept no more. -/
def forget (f : Forest) (w : WrapperRef) (key : String) : Forest :=
  f.modifyWrapper w fun x => { x with cache := x.cache.erase key }

theorem dropCached_eq (hd : (f.wrapper w).cache.get? key = some d) :
    f.dropCached w key = (f.forget w key).destroy d := by
  rw [dropCached, hd]
  rfl

theorem dropCached_of_none (hd : (f.wrapper w).cache.get? key = none) : f.dropCached w key = f := by
  rw [dropCached, hd]

theorem unmoved_forget (f : Forest) (w : WrapperRef) (key : String) (v : WrapperRef) :
    f.Unmoved (f.forget w key) v := by
  rcases f.wrapper_modifyWrapper (g := fun x => { x with cache := x.cache.erase key }) w v with
    ⟨e, rfl⟩ | e <;> rw [Unmoved, forget, e]
  exacts [⟨_, rfl⟩, ⟨_, rfl⟩]

theorem get?_forget {k : String} :
    ((f.forget w key).wrapper v).cache.get? k = some c ↔
      (v = w → k ≠ key) ∧ (f.wrapper v).cache.get? k = some c := by
  by_cases hv : v = w
  · subst hv
    by_cases hmade : v.index < f.wrappers.size
    · rw [forget, wrapper_modifyWrapper_self hmade, Entries.get?_erase_eq_some_iff]
      simp
    · have hnone : ∀ g : Forest, g.wrappers.size = f.wrappers.size →
          (g.wrapper v).cache.get? k = none := fun g hg => by
        rw [wrapper_of_size_le (by omega)]
        rfl
      rw [hnone f rfl, hnone (f.forget v key) (size_modifyWrapper _ _ _)]
      simp
  · rw [forget, wrapper_modifyWrapper_of_ne hv]
    simp [hv]

theorem Kept.forget (h : f.Kept) (w : WrapperRef) (key : String) : (f.forget w key).Kept :=
  h.modifyWrapper rfl rfl rfl fun _ _ hc => (Entries.get?_erase_eq_some_iff.mp hc).2

/-! ### One place for each wrapper -/

/-- What holds of the places of wrappers: each is kept in one place only, and by its parent if it
has one. -/
structure Placed (f : Forest) : Prop extends f.Kept where
  once : ∀ v k v' k' c, (f.wrapper v).cache.get? k = some c →
    (f.wrapper v').cache.get? k' = some c → v' = v ∧ k' = k
  held : ∀ c p, (f.wrapper c).parent = some p →
    ∃ key, (f.wrapper c).key = some key ∧ (f.wrapper p).cache.get? key = some c

/-- Whether each wrapper is as it was or all wrappers that it kept have been destroyed. -/
def Thorough (f g : Forest) : Prop :=
  ∀ p, g.wrapper p = f.wrapper p ∨
    ∀ d ∈ (f.wrapper p).cache.values, g.wrapper d = (f.wrapper d).detached

namespace Thorough

variable {h : Forest} {doomed doomed' : List WrapperRef}

theorem refl (f : Forest) : Thorough f f := fun _ => .inl rfl

theorem trans (hfg : Thorough f g) (hgh : Thorough g h) (hfade : Fades doomed f g)
    (hfade' : Fades doomed' g h) : Thorough f h := by
  intro p
  rcases hfg p with e | hp
  · refine (hgh p).imp (fun e' => e'.trans e) fun hp d hd => ?_
    rw [hp d (e ▸ hd)]
    rcases hfade.detached_or d with e' | e' <;> rw [e']
    rfl
  · exact .inr fun d hd => hfade'.detached_trans (hp d hd)

end Thorough

/-- One after another, wrappers are destroyed thoroughly if each of them is. -/
theorem thorough_foldl (hone : ∀ {f : Forest} {d : WrapperRef}, f.Kept → d.index < f.wrappers.size →
      f.wrappers.size ≤ n + d.index →
      (destroyTo n d f).wrapper d = (f.wrapper d).detached ∧ Thorough f (destroyTo n d f))
    {l : List WrapperRef} (hk : f.Kept)
    (hl : ∀ d ∈ l, d.index < f.wrappers.size ∧ f.wrappers.size ≤ n + d.index) :
    Fades l f (l.foldl (fun f c => destroyTo n c f) f) ∧
      Thorough f (l.foldl (fun f c => destroyTo n c f) f) ∧
      ∀ d ∈ l, (l.foldl (fun f c => destroyTo n c f) f).wrapper d = (f.wrapper d).detached := by
  induction l generalizing f with
  | nil => exact ⟨.refl f, .refl f, fun _ hd => nomatch hd⟩
  | cons d rest ihl =>
    obtain ⟨hd, hrest⟩ := List.forall_mem_cons.mp hl
    have hfade : Fades [d] f (destroyTo n d f) := .destroyTo n d f
    obtain ⟨hself, hthorough⟩ := hone hk hd.1 hd.2
    obtain ⟨hfade', hthorough', hdone⟩ := ihl (hk.of_fades hfade) (by rwa [hfade.size])
    refine ⟨hfade.trans hfade', hthorough.trans hthorough' hfade hfade', ?_⟩
    refine List.forall_mem_cons.mpr ⟨hfade'.detached_trans hself, fun e he => ?_⟩
    rw [List.foldl_cons, hdone e he]
    rcases hfade.detached_or e with e' | e' <;> rw [e']
    rfl

/-- With enough depth, destroying a wrapper destroys it, and with each wrapper all that it keeps. -/
theorem thorough_destroyTo (hk : f.Kept) (hc : c.index < f.wrappers.size)
    (hn : f.wrappers.size ≤ n + c.index) :
    (destroyTo n c f).wrapper c = (f.wrapper c).detached ∧ Thorough f (destroyTo n c f) := by
  induction n generalizing f c with
  | zero => omega
  | succ n ih =>
    have hbelow : ∀ d ∈ (f.wrapper c).cache.values,
        d.index < f.wrappers.size ∧ f.wrappers.size ≤ n + d.index := by
      intro d hd
      obtain ⟨key, hkey⟩ := Entries.mem_values_iff.mp hd
      have hafter := hk.after c key d hkey
      exact ⟨hk.cached_lt c d hd, by omega⟩
    obtain ⟨hfade, hthorough, hdone⟩ := thorough_foldl ih hk hbelow
    have hlast := hfade.detach
    have hself : (destroyTo (n + 1) c f).wrapper c = (f.wrapper c).detached := by
      refine (wrapper_modifyWrapper_self (by rw [hfade.size]; exact hc)).trans ?_
      show Wrapper.detached _ = _
      rcases hfade.detached_or c with e | e <;> rw [e]
      rfl
    have hstay : ∀ d, (f.wrapper d).detached =
        ((f.wrapper c).cache.values.foldl (fun f c => destroyTo n c f) f).wrapper d →
        (destroyTo (n + 1) c f).wrapper d = (f.wrapper d).detached := by
      intro d hd
      rcases wrapper_modifyWrapper (g := Wrapper.detached)
        ((f.wrapper c).cache.values.foldl (fun f c => destroyTo n c f) f) c d with ⟨e, rfl⟩ | e
      · exact hself
      · exact e.trans hd.symm
    refine ⟨hself, fun p => ?_⟩
    by_cases hp : p = c
    · subst hp
      exact .inr fun d hd => hstay d (hdone d hd).symm
    · rcases hthorough p with e | hp'
      · exact .inl ((wrapper_modifyWrapper_of_ne hp).trans e)
      · exact .inr fun d hd => hstay d (hp' d hd).symm

theorem thorough_destroy (hk : f.Kept) (hc : c.index < f.wrappers.size) :
    (f.destroy c).wrapper c = (f.wrapper c).detached ∧ Thorough f (f.destroy c) :=
  thorough_destroyTo hk hc (Nat.le_add_right _ _)

/-- Destroying what has not been made changes nothing. -/
theorem destroy_of_size_le (h : f.wrappers.size ≤ c.index) : f.destroy c = f := by
  rw [destroy]
  cases f.wrappers.size with
  | zero => rfl
  | succ n =>
    rw [destroyTo, wrapper_of_size_le h]
    show f.modifyWrapper c _ = f
    simp [modifyWrapper, Array.setIfInBounds, Nat.not_lt.mpr h]

namespace Placed

/-- Destroying a wrapper leaves the others in their places. The destroyed one need not be kept by
its parent any more. -/
theorem destroy (hk : f.Kept) (hc : c.index < f.wrappers.size)
    (honce : ∀ v k v' k' d, (f.wrapper v).cache.get? k = some d →
      (f.wrapper v').cache.get? k' = some d → v' = v ∧ k' = k)
    (hheld : ∀ d p, d ≠ c → (f.wrapper d).parent = some p →
      ∃ key, (f.wrapper d).key = some key ∧ (f.wrapper p).cache.get? key = some d) :
    (f.destroy c).Placed := by
  have hfade := f.fades_destroy c
  obtain ⟨hself, hthorough⟩ := thorough_destroy hk hc
  refine { hk.of_fades hfade with once := ?_, held := ?_ }
  · intro v k v' k' d hd hd'
    exact honce v k v' k' d (hfade.get?_cache hd) (hfade.get?_cache hd')
  · intro d p hp
    have hsame : (f.destroy c).wrapper d = f.wrapper d := by
      refine (hfade.detached_or d).resolve_right fun e => ?_
      rw [e] at hp
      cases hp
    rw [hsame] at hp ⊢
    have hne : d ≠ c := by
      rintro rfl
      rw [hsame] at hself
      rw [hself] at hp
      cases hp
    obtain ⟨key, hkey, hcache⟩ := hheld d p hne hp
    refine ⟨key, hkey, ?_⟩
    rcases hthorough p with e | hall
    · rwa [e]
    · -- the parent would have taken this wrapper with it
      rw [hsame.symm.trans (hall d (Entries.mem_values_of_get? hcache))] at hp
      cases hp

theorem dropCached (h : f.Placed) (w : WrapperRef) (key : String) : (f.dropCached w key).Placed := by
  cases hc : (f.wrapper w).cache.get? key with
  | none => rwa [dropCached_of_none hc]
  | some c =>
    rw [dropCached_eq hc]
    refine Placed.destroy (h.toKept.forget w key) ?_ (fun v k v' k' d hd hd' => ?_)
      fun d p hne hp => ?_
    · rw [Forest.forget, size_modifyWrapper]
      exact h.cached_lt w c (Entries.mem_values_of_get? hc)
    · exact h.once v k v' k' d (get?_forget.mp hd).2 (get?_forget.mp hd').2
    · rw [(f.unmoved_forget w key d).parent] at hp
      rw [(f.unmoved_forget w key d).key_eq]
      obtain ⟨k, hk, hd⟩ := h.held d p hp
      refine ⟨k, hk, get?_forget.mpr ⟨?_, hd⟩⟩
      rintro rfl rfl
      exact hne (Option.some.inj (hd.symm.trans hc))

theorem wrapChild (h : f.Placed) (hw : w.index < f.wrappers.size)
    (hfree : (f.wrapper w).cache.get? key = none) (r : NodeRef) :
    (f.wrapChild w key r).2.Placed := by
  have hold : ∀ v k d, (f.wrapper v).cache.get? k = some d → d.index < f.wrappers.size :=
    fun v k d hd => h.cached_lt v d (Entries.mem_values_of_get? hd)
  refine { h.toKept.wrapChild hw key r with once := ?_, held := ?_ }
  · intro v k v' k' d hd hd'
    rcases get?_wrapChild hw hd with ⟨rfl, rfl, rfl⟩ | hkept <;>
      rcases get?_wrapChild hw hd' with ⟨rfl, rfl, e⟩ | hkept'
    · exact ⟨rfl, rfl⟩
    · exact absurd (hold _ _ _ hkept') (Nat.lt_irrefl _)
    · subst e
      exact absurd (hold _ _ _ hkept) (Nat.lt_irrefl _)
    · exact h.once v k v' k' d hkept hkept'
  · intro d p hp
    by_cases hnew : d.index = f.wrappers.size
    · obtain rfl : d = ⟨f.wrappers.size⟩ := by cases d; exact congrArg _ hnew
      rw [wrapper_wrapChild_new hw] at hp ⊢
      cases hp
      refine ⟨key, rfl, ?_⟩
      rw [wrapper_wrapChild_self hw]
      exact Entries.get?_insert_self _ _ _
    · obtain ⟨m, e⟩ := wrapper_wrapChild_old key r hw hnew
      rw [e] at hp ⊢
      obtain ⟨k, hk, hd⟩ := h.held d p hp
      refine ⟨k, hk, ?_⟩
      by_cases hpw : p = w
      · subst hpw
        have hne : k ≠ key := by
          rintro rfl
          rw [hfree] at hd
          cases hd
        rw [wrapper_wrapChild_self hw]
        exact (Entries.get?_insert_of_ne _ _ hne).trans hd
      · have hp' : p.index ≠ f.wrappers.size := Nat.ne_of_lt
          (lt_size_of_mem_cache (Entries.mem_values_of_get? hd))
        rwa [wrapper_wrapChild_of_ne hpw hp']

end Placed

/-- After a wrapper has been forgotten its place is free. -/
theorem get?_dropCached_self (f : Forest) (w : WrapperRef) (key : String) :
    ((f.dropCached w key).wrapper w).cache.get? key = none := by
  cases hc : (f.wrapper w).cache.get? key with
  | none => rwa [dropCached_of_none hc]
  | some c =>
    rw [dropCached_eq hc, Option.eq_none_iff_forall_ne_some]
    intro d hd
    exact (get?_forget.mp ((f.forget w key).fades_destroy c |>.get?_cache hd)).1 rfl rfl

theorem Placed.child (h : f.Placed) (hw : w.index < f.wrappers.size) (key : String) :
    (f.child w key).2.Placed := by
  rcases f.child_cases w key with ⟨-, e⟩ | ⟨_, -, -, e⟩ | ⟨r, -, e⟩ <;> rw [e]
  · exact h
  · exact h
  · refine (h.dropCached w key).wrapChild ?_ (get?_dropCached_self f w key) r
    rwa [size_dropCached]

/-- A node may be wrapped. -/
theorem Placed.allocWrapper (h : f.Placed) (r : NodeRef) (g : Option Registry) :
    (f.allocWrapper (.ofNode r g)).2.Placed := by
  refine { h.toKept.allocWrapper r g with once := ?_, held := ?_ }
  · intro v k v' k' c hc hc'
    exact h.once v k v' k' c (get?_allocWrapper hc) (get?_allocWrapper hc')
  · intro c p hp
    rcases f.wrapper_allocWrapper (.ofNode r g) c with ⟨e, -⟩ | e <;> rw [e] at hp ⊢
    · cases hp
    · obtain ⟨key, hkey, hc⟩ := h.held c p hp
      have hp' := lt_size_of_mem_cache (Entries.mem_values_of_get? hc)
      rw [f.wrapper_allocWrapper_of_ne _ (Nat.ne_of_lt hp')]
      exact ⟨key, hkey, hc⟩

/-- A wrapper may change as long as it stays where it is and keeps the same wrappers. -/
theorem Placed.modifyWrapper (h : f.Placed) {u : Wrapper → Wrapper}
    (hu : (f.wrapper w).SamePlace (u (f.wrapper w))) : (f.modifyWrapper w u).Placed := by
  have hsame := samePlace_modifyWrapper hu
  have hkept : (f.modifyWrapper w u).Kept :=
    h.toKept.modifyWrapper hu.parent hu.key hu.destroyed fun k c hc => by rwa [hu.cache] at hc
  refine { hkept with once := ?_, held := ?_ }
  · intro v k v' k' c hc hc'
    rw [(hsame v).cache] at hc
    rw [(hsame v').cache] at hc'
    exact h.once v k v' k' c hc hc'
  · intro c p hp
    rw [(hsame c).parent] at hp
    rw [(hsame c).key, (hsame p).cache]
    exact h.held c p hp

theorem Arises.placed {onRequest : Bool} (h : f.Arises onRequest) : f.Placed := by
  induction h with
  | start s =>
    refine { (show (Forest.mk s #[]).Arises onRequest from .start s).kept with once := ?_, held := ?_ }
    · intro v k v' k' c hc
      rw [wrapper_start] at hc
      cases hc
    · intro c p hp
      rw [wrapper_start] at hp
      cases hp
  | wrap _ r g ih => exact ih.allocWrapper r g
  | store _ s ih => exact { ih.toKept.store s with once := ih.once, held := ih.held }
  | @renewed f h w hw key r ih =>
    refine (ih.dropCached w key).wrapChild ?_ (get?_dropCached_self f w key) r
    rwa [size_dropCached]
  | dropped _ w key ih => exact ih.dropCached w key
  | tuned _ _ hu ih => exact ih.modifyWrapper hu
  | @destroyed f h _ w ih =>
    by_cases hw : w.index < f.wrappers.size
    · exact .destroy ih.toKept hw ih.once fun d p _ hp => ih.held d p hp
    · rwa [destroy_of_size_le (Nat.not_lt.mp hw)]

/-! ### Ways that last -/

/-- What asking for a child does: there is none, or its kept wrapper is given, or a new one takes
the place of what was kept for a node that has moved. -/
theorem child_cases_moved (f : Forest) (w : WrapperRef) (key : String) :
    ((f.nodeAt w).children.get? key = none ∧ f.child w key = (none, f)) ∨
    (∃ c, (f.wrapper w).cache.get? key = some c ∧
      (f.nodeAt w).children.get? key = some (f.wrapper c).node ∧ f.child w key = (some c, f)) ∨
    ∃ r, (f.nodeAt w).children.get? key = some r ∧
      (∀ c, (f.wrapper w).cache.get? key = some c → (f.wrapper c).node ≠ r) ∧
      f.child w key =
        (some ⟨(f.dropCached w key).wrappers.size⟩, ((f.dropCached w key).wrapChild w key r).2) := by
  rcases f.child_cases w key with h | h | ⟨r, hr, e⟩
  · exact .inl h
  · exact .inr (.inl h)
  · refine .inr (.inr ⟨r, hr, fun c hc hcr => ?_, e⟩)
    subst hcr
    have hgiven : f.child w key = (some c, f) := by simp [child, hr, hc]
    have hsize := congrArg (fun x : Option WrapperRef × Forest => x.2.wrappers.size)
      (hgiven.symm.trans e)
    simp [size_dropCached] at hsize

namespace Along

theorem append {q : Path} (h : f.Along top p w) (h' : f.Along w q c) : f.Along top (p ++ q) c := by
  induction h with
  | here => exact h'
  | child hkept hnode _ ih => exact .child hkept hnode (ih h')

theorem step (h : f.Along top p w) (hkept : (f.wrapper w).cache.get? key = some c)
    (hnode : (f.nodeAt w).children.get? key = some (f.wrapper c).node) :
    f.Along top (p ++ [key]) c := h.append (.child hkept hnode (.here c))

/-- A way down goes through the wrappers that its beginnings lead to. -/
theorem from_prefix {q : Path} (h : f.Along top (p ++ q) c) (hw : f.Along top p w) : f.Along w q c := by
  induction hw with
  | here => exact h
  | child hkept _ _ ih =>
    cases h with
    | child hkept' _ h =>
      cases hkept.symm.trans hkept'
      exact ih h

/-- The last wrapper on a way is kept by the one before. -/
theorem last_step (h : f.Along top (p ++ [key]) c) :
    ∃ w, f.Along top p w ∧ (f.wrapper w).cache.get? key = some c ∧
      (f.nodeAt w).children.get? key = some (f.wrapper c).node := by
  induction p generalizing top with
  | nil =>
    cases h with
    | child hkept hnode h =>
      cases h
      exact ⟨top, .here top, hkept, hnode⟩
  | cons k rest ih =>
    cases h with
    | child hkept hnode h =>
      obtain ⟨w, hw, hlast⟩ := ih h
      exact ⟨w, .child hkept hnode hw, hlast⟩

theorem unique (h : f.Along top p c) (h' : f.Along top p d) : d = c := by
  induction h with
  | here => cases h'; rfl
  | child hkept _ _ ih =>
    cases h' with
    | child hkept' _ h' =>
      cases hkept.symm.trans hkept'
      exact ih h'

theorem made (h : f.Along top p c) (ho : f.Ordered) (htop : top.index < f.wrappers.size) :
    c.index < f.wrappers.size := by
  induction h with
  | here => exact htop
  | child hkept _ _ ih => exact ih (ho.cached_lt _ _ (Entries.mem_values_of_get? hkept))

theorem index_le (h : f.Along top p c) (hk : f.Kept) : top.index ≤ c.index := by
  induction h with
  | here => exact Nat.le_refl _
  | child hkept _ _ ih => exact Nat.le_trans (Nat.le_of_lt (hk.after _ _ _ hkept)) ih

end Along

/-- A wrapper that stands below another one is met going down along kept wrappers. -/
theorem Placed.along_of_leads (h : f.Placed) (hc : f.Leads v p c) : f.Along v p c := by
  induction hc with
  | here v => exact .here v
  | child hparent hkey hnode _ ih =>
    obtain ⟨key, hkey', hkept⟩ := h.held _ _ hparent
    cases hkey.symm.trans hkey'
    exact .child hkept hnode ih

/-- Whether the ways down from a wrapper along kept wrappers are still there in another forest, with
wrappers that are the same except for what they keep. -/
structure Lasts (top : WrapperRef) (f g : Forest) : Prop where
  along : ∀ p c, f.Along top p c → g.Along top p c
  unmoved : ∀ p c, f.Along top p c → f.Unmoved g c

namespace Lasts

theorem refl (top : WrapperRef) (f : Forest) : Lasts top f f :=
  ⟨fun _ _ h => h, fun _ c _ => .refl f c⟩

theorem trans {h : Forest} (hfg : Lasts top f g) (hgh : Lasts top g h) : Lasts top f h where
  along p c hc := hgh.along p c (hfg.along p c hc)
  unmoved p c hc := (hfg.unmoved p c hc).trans (hgh.unmoved p c (hfg.along p c hc))

/-- It is enough to look at each wrapper on the way and at what it keeps. -/
theorem of_steps {S : WrapperRef → Prop} (hs : g.store = f.store) (hS : ∀ c, S c → f.Unmoved g c)
    (htop : S top)
    (hstep : ∀ w key c, S w → (f.wrapper w).cache.get? key = some c →
      (f.nodeAt w).children.get? key = some (f.wrapper c).node →
      (g.wrapper w).cache.get? key = some c ∧ S c) : Lasts top f g := by
  have hall : ∀ p w c, S w → f.Along w p c → g.Along w p c ∧ S c := by
    intro p w c hw h
    induction h with
    | here => exact ⟨.here _, hw⟩
    | child hkept hnode _ ih =>
      obtain ⟨hkept', hc⟩ := hstep _ _ _ hw hkept hnode
      refine ⟨.child hkept' ?_ (ih hc).1, (ih hc).2⟩
      rw [(hS _ hw).nodeAt hs, (hS _ hc).node]
      exact hnode
  exact ⟨fun p c h => (hall p top c htop h).1, fun p c h => hS c (hall p top c htop h).2⟩

/-- Forgetting a wrapper whose node has moved destroys nothing on a way that starts at a wrapper
that is kept nowhere, or above. -/
theorem dropCached (h : f.Placed) (htop : (∀ u k, (f.wrapper u).cache.get? k ≠ some top) ∨
      top.index ≤ v.index)
    (hmoved : ∀ d, (f.wrapper v).cache.get? key = some d →
      (f.nodeAt v).children.get? key ≠ some (f.wrapper d).node) :
    Lasts top f (f.dropCached v key) := by
  cases hd : (f.wrapper v).cache.get? key with
  | none =>
    rw [dropCached_of_none hd]
    exact .refl top f
  | some d =>
    rw [dropCached_eq hd]
    have hfade := (f.forget v key).fades_destroy d
    -- a wrapper is spared if each one that keeps it is
    have hspare : ∀ c, c ≠ d → (∀ u k, (f.wrapper u).cache.get? k = some c →
        ((f.forget v key).destroy d).wrapper u = (f.forget v key).wrapper u) →
        ((f.forget v key).destroy d).wrapper c = (f.forget v key).wrapper c := by
      intro c hne hkeepers
      rcases hfade.wrapper c with hc | ⟨-, hdoomed | ⟨u, hu, hdetached⟩⟩
      · exact hc
      · exact absurd (List.mem_singleton.mp hdoomed) hne
      · obtain ⟨k, hu⟩ := Entries.mem_values_iff.mp hu
        have hempty := (hkeepers u k (get?_forget.mp hu).2).symm.trans hdetached
        rw [hempty] at hu
        cases hu
    refine of_steps (S := fun c => ((f.forget v key).destroy d).wrapper c =
      (f.forget v key).wrapper c) hfade.store (fun c hc => ?_) ?_ fun w k c hw hkept hnode => ?_
    · rw [Unmoved, hc]
      exact f.unmoved_forget v key c
    · rcases htop with hunkept | hle
      · exact hspare top (fun heq => hunkept v key (heq ▸ hd)) fun u k hu => absurd hu (hunkept u k)
      · exact hfade.wrapper_of_lt (h.toKept.forget v key)
          (Nat.lt_of_le_of_lt hle (h.after v key d hd))
    · have hplace : w = v → k ≠ key := by
        rintro rfl rfl
        exact hmoved d hd (Option.some.inj (hkept.symm.trans hd) ▸ hnode)
      refine ⟨?_, hspare c ?_ fun u k' hu => ?_⟩
      · rw [hw]
        exact get?_forget.mpr ⟨hplace, hkept⟩
      · rintro rfl
        obtain ⟨rfl, rfl⟩ := h.once w k v key c hkept hd
        exact hplace rfl rfl
      · obtain ⟨rfl, -⟩ := h.once w k u k' c hkept hu
        exact hw

/-- So does making a wrapper in a free place. -/
theorem wrapChild (h : f.Ordered) (htop : top.index < f.wrappers.size)
    (hv : v.index < f.wrappers.size) (hfree : (f.wrapper v).cache.get? key = none) (r : NodeRef) :
    Lasts top f (f.wrapChild v key r).2 := by
  refine of_steps (S := fun c => c.index < f.wrappers.size) rfl (fun c hc => ?_) htop
    fun w k c hw hkept _ => ?_
  · exact wrapper_wrapChild_old key r hv (Nat.ne_of_lt hc)
  · refine ⟨?_, h.cached_lt w c (Entries.mem_values_of_get? hkept)⟩
    by_cases e : w = v
    · subst e
      have hne : k ≠ key := by
        rintro rfl
        rw [hfree] at hkept
        cases hkept
      rw [wrapper_wrapChild_self hv]
      exact (Entries.get?_insert_of_ne _ _ hne).trans hkept
    · rw [wrapper_wrapChild_of_ne e (Nat.ne_of_lt hw)]
      exact hkept

/-- Asking a wrapper anywhere in the forest for a child leaves the ways down from one that is kept
nowhere, or that was made before. -/
theorem child (h : f.Placed) (htop : top.index < f.wrappers.size)
    (habove : (∀ u k, (f.wrapper u).cache.get? k ≠ some top) ∨ top.index ≤ v.index)
    (hv : v.index < f.wrappers.size) (key : String) : Lasts top f (f.child v key).2 := by
  rcases f.child_cases_moved v key with ⟨-, e⟩ | ⟨c, -, -, e⟩ | ⟨r, hr, hmoved, e⟩ <;> rw [e]
  · exact .refl top f
  · exact .refl top f
  · have hdrop : Lasts top f (f.dropCached v key) := dropCached h habove fun d hd hnode =>
      hmoved d hd (Option.some.inj (hnode.symm.trans hr))
    refine hdrop.trans (wrapChild (h.dropCached v key).toOrdered ?_ ?_ ?_ r)
    · rwa [size_dropCached]
    · rwa [size_dropCached]
    · exact get?_dropCached_self f v key

end Lasts

end Forest

end LiveTree
