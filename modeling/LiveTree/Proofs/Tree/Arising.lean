import LiveTree.Proofs.Tree.Wrappers
import Mathlib.Data.List.Nodup

/-! The forests that a program can come to. It starts with no wrapper and then, in any order and
any number of times, wraps nodes, makes and forgets the wrappers of children, destroys wrappers,
subscribes and holds back, and puts whatever it likes into the nodes. Throughout, a wrapper is made
after its parent, and a kept wrapper that is not destroyed has the wrapper that keeps it as its
parent and is kept under its own key. As long as no wrapper is destroyed on request, every kept
wrapper is alive. -/

namespace LiveTree

namespace Wrapper

/-- The wrapper after it has been destroyed. -/
def detached (x : Wrapper) : Wrapper :=
  { x with cache := ∅, subscribers := [], parent := none, destroyed := true }

/-- Whether two states of a wrapper stand at the same place and keep the same wrappers. -/
structure SamePlace (x y : Wrapper) : Prop where
  node : y.node = x.node
  parent : y.parent = x.parent
  key : y.key = x.key
  cache : y.cache = x.cache
  destroyed : y.destroyed = x.destroyed

end Wrapper

namespace Forest

/-- Whether a program can come to a forest, without or with destroying wrappers on request. -/
inductive Arises (onRequest : Bool) : Forest → Prop
  /-- At the start there is a store of any content and no wrapper. -/
  | start (s : Store) : Arises onRequest ⟨s, #[]⟩
  /-- A node is wrapped; the wrapper has no parent. -/
  | wrap {f : Forest} (h : Arises onRequest f) (r : NodeRef) (g : Option Registry) :
    Arises onRequest (f.allocWrapper (.ofNode r g)).2
  /-- The cells change in any way, also behind the wrappers' backs. -/
  | store {f : Forest} (h : Arises onRequest f) (s : Store) : Arises onRequest { f with store := s }
  /-- The wrapper of a child is made, in place of the one that was kept. -/
  | renewed {f : Forest} (h : Arises onRequest f) {w : WrapperRef}
    (hw : w.index < f.wrappers.size) (key : String) (r : NodeRef) :
    Arises onRequest ((f.dropCached w key).wrapChild w key r).2
  /-- The wrapper of a child is forgotten. -/
  | dropped {f : Forest} (h : Arises onRequest f) (w : WrapperRef) (key : String) :
    Arises onRequest (f.dropCached w key)
  /-- The registry, the subscribers or what is held back change. -/
  | tuned {f : Forest} (h : Arises onRequest f) (w : WrapperRef) {g : Wrapper → Wrapper}
    (hg : (f.wrapper w).SamePlace (g (f.wrapper w))) : Arises onRequest (f.modifyWrapper w g)
  /-- A wrapper is destroyed on request. -/
  | destroyed {f : Forest} (h : Arises onRequest f) (hr : onRequest = true) (w : WrapperRef) :
    Arises onRequest (f.destroy w)

variable {f : Forest} {w : WrapperRef} {n : ℕ}

/-- If a wrapper stays in its place when it changes, so do all. -/
theorem samePlace_modifyWrapper {u : Wrapper → Wrapper}
    (hu : (f.wrapper w).SamePlace (u (f.wrapper w))) (v : WrapperRef) :
    (f.wrapper v).SamePlace ((f.modifyWrapper w u).wrapper v) := by
  rcases f.wrapper_modifyWrapper (g := u) w v with ⟨e, rfl⟩ | e <;> rw [e]
  exacts [hu, ⟨rfl, rfl, rfl, rfl, rfl⟩]

/-! ### Destroying -/

/-- Whether a forest comes from another by the destruction of some wrappers and of what destroyed
wrappers kept. -/
structure Fades (doomed : List WrapperRef) (f g : Forest) : Prop where
  store : g.store = f.store
  size : g.wrappers.size = f.wrappers.size
  wrapper : ∀ v, g.wrapper v = f.wrapper v ∨ g.wrapper v = (f.wrapper v).detached ∧
    (v ∈ doomed ∨ ∃ d, v ∈ (f.wrapper d).cache.values ∧ g.wrapper d = (f.wrapper d).detached)

namespace Fades

variable {f g h : Forest} {doomed doomed' : List WrapperRef}

theorem refl (f : Forest) : Fades [] f f := ⟨rfl, rfl, fun _ => .inl rfl⟩

theorem detached_or (h : Fades doomed f g) (v : WrapperRef) :
    g.wrapper v = f.wrapper v ∨ g.wrapper v = (f.wrapper v).detached :=
  (h.wrapper v).imp_right And.left

/-- Only destroyed wrappers have lost what they kept. -/
theorem cache_eq (h : Fades doomed f g) {v c : WrapperRef} (hc : c ∈ (g.wrapper v).cache.values) :
    g.wrapper v = f.wrapper v := by
  refine (h.detached_or v).resolve_right fun e => ?_
  rw [e] at hc
  cases hc

/-- A wrapper that is destroyed stays so. -/
theorem detached_trans (h' : Fades doomed g h) {v : WrapperRef}
    (hv : g.wrapper v = (f.wrapper v).detached) : h.wrapper v = (f.wrapper v).detached := by
  rcases h'.detached_or v with e | e <;> rw [e, hv]
  rfl

theorem trans (hfg : Fades doomed f g) (hgh : Fades doomed' g h) :
    Fades (doomed ++ doomed') f h where
  store := hgh.store.trans hfg.store
  size := hgh.size.trans hfg.size
  wrapper v := by
    rcases hfg.wrapper v with e | ⟨e, hv⟩
    · rcases hgh.wrapper v with e' | ⟨e', hv⟩
      · exact .inl (e'.trans e)
      · refine .inr ⟨by rw [e', e], ?_⟩
        rcases hv with hv | ⟨d, hvd, hd⟩
        · exact .inl (List.mem_append_right _ hv)
        · have ed := hfg.cache_eq hvd
          exact .inr ⟨d, ed ▸ hvd, by rw [hd, ed]⟩
    · refine .inr ⟨hgh.detached_trans e, ?_⟩
      rcases hv with hv | ⟨d, hvd, hd⟩
      · exact .inl (List.mem_append_left _ hv)
      · exact .inr ⟨d, hvd, hgh.detached_trans hd⟩

/-- The wrappers that a wrapper keeps are destroyed first, and then the wrapper itself. -/
theorem detach {c : WrapperRef} (h : Fades (f.wrapper c).cache.values f g) :
    Fades [c] f (g.modifyWrapper c Wrapper.detached) where
  store := h.store
  size := (size_modifyWrapper _ _ _).trans h.size
  wrapper v := by
    have hlast : ∀ d, g.wrapper d = (f.wrapper d).detached →
        (g.modifyWrapper c Wrapper.detached).wrapper d = (f.wrapper d).detached := by
      intro d hd
      rcases g.wrapper_modifyWrapper (g := Wrapper.detached) c d with ⟨e, rfl⟩ | e <;> rw [e, hd]
      rfl
    rcases g.wrapper_modifyWrapper (g := Wrapper.detached) c v with ⟨e, rfl⟩ | e
    · refine .inr ⟨?_, .inl (List.mem_singleton.mpr rfl)⟩
      rcases h.detached_or v with e' | e' <;> rw [e, e']
      rfl
    · rcases h.wrapper v with e' | ⟨e', hv⟩
      · exact .inl (e.trans e')
      · refine .inr ⟨e.trans e', .inr ?_⟩
        rcases hv with hv | ⟨d, hvd, hd⟩
        · have hc : c.index < g.wrappers.size := h.size ▸ lt_size_of_mem_cache hv
          refine ⟨c, hv, (wrapper_modifyWrapper_self hc).trans ?_⟩
          rcases h.detached_or c with ec | ec <;> rw [ec]
          rfl
        · exact ⟨d, hvd, hlast d hd⟩

theorem destroyTo (n : ℕ) (c : WrapperRef) (f : Forest) : Fades [c] f (destroyTo n c f) := by
  induction n generalizing c f with
  | zero => exact ⟨rfl, rfl, fun _ => .inl rfl⟩
  | succ n ih =>
    have hfold : ∀ (l : List WrapperRef) (f : Forest),
        Fades l f (l.foldl (fun f c => Forest.destroyTo n c f) f) := by
      intro l
      induction l with
      | nil => exact Fades.refl
      | cons c rest ihl => exact fun f => (ih c f).trans (ihl _)
    exact (hfold (f.wrapper c).cache.values f).detach

end Fades

theorem fades_destroy (f : Forest) (c : WrapperRef) : Fades [c] f (f.destroy c) :=
  .destroyTo _ c f

@[simp] theorem size_dropCached (f : Forest) (w : WrapperRef) (key : String) :
    (f.dropCached w key).wrappers.size = f.wrappers.size := by
  rw [dropCached]
  split
  · rfl
  · exact (fades_destroy _ _).size.trans (size_modifyWrapper _ _ _)

theorem size_syncCache (f : Forest) (w : WrapperRef) :
    (f.syncCache w).wrappers.size = f.wrappers.size :=
  syncCacheTo_closed (P := fun g => g.wrappers.size = f.wrappers.size)
    (fun g v key hg => (size_dropCached g v key).trans hg) _ w rfl

/-! ### What holds of kept wrappers -/

/-- What holds of the wrappers of every forest that a program can come to. -/
structure Kept (f : Forest) : Prop extends f.Ordered where
  after : ∀ w key c, (f.wrapper w).cache.get? key = some c → w.index < c.index
  place : ∀ w key c, (f.wrapper w).cache.get? key = some c → (f.wrapper c).destroyed = false →
    (f.wrapper c).parent = some w ∧ (f.wrapper c).key = some key
  alone : ∀ w, (f.wrapper w).destroyed = true → (f.wrapper w).parent = none

/-- Whether all kept wrappers are alive. -/
def Lively (f : Forest) : Prop :=
  ∀ w key c, (f.wrapper w).cache.get? key = some c → (f.wrapper c).destroyed = false

variable {g : Forest} {doomed : List WrapperRef} {c : WrapperRef} {key : String}

/-- A wrapper that is kept at the end was kept at the start. -/
theorem Fades.get?_cache (h : Fades doomed f g) (hc : (g.wrapper w).cache.get? key = some c) :
    (f.wrapper w).cache.get? key = some c :=
  h.cache_eq (Entries.mem_values_of_get? hc) ▸ hc

/-- A wrapper that is alive at the end has not changed. -/
theorem Fades.wrapper_eq (h : Fades doomed f g) (hw : (g.wrapper w).destroyed = false) :
    g.wrapper w = f.wrapper w :=
  (h.detached_or w).resolve_right fun e => by rw [e] at hw; cases hw

namespace Kept

theorem of_fades (h : f.Kept) (hg : Fades doomed f g) : g.Kept where
  parent_lt v p hp := by
    rcases hg.detached_or v with e | e
    · exact h.parent_lt v p (e ▸ hp)
    · rw [e] at hp
      cases hp
  cached_lt v c hc := hg.size ▸ h.cached_lt v c (hg.cache_eq hc ▸ hc)
  after v key c hc := h.after v key c (hg.get?_cache hc)
  place v key c hc hlive := by
    have e := hg.wrapper_eq hlive
    rw [e] at hlive ⊢
    exact h.place v key c (hg.get?_cache hc) hlive
  alone v hv := by
    rcases hg.detached_or v with e | e
    · rw [e] at hv ⊢
      exact h.alone v hv
    · rw [e]
      rfl

/-- The cells do not matter. -/
theorem store (h : f.Kept) (s : Store) : Kept { f with store := s } :=
  ⟨⟨h.parent_lt, h.cached_lt⟩, h.after, h.place, h.alone⟩

/-- A wrapper may change as long as it stays where it is and comes to keep no others. -/
theorem modifyWrapper (h : f.Kept) {u : Wrapper → Wrapper}
    (hparent : (u (f.wrapper w)).parent = (f.wrapper w).parent)
    (hkey : (u (f.wrapper w)).key = (f.wrapper w).key)
    (hdestroyed : (u (f.wrapper w)).destroyed = (f.wrapper w).destroyed)
    (hcache : ∀ key c, (u (f.wrapper w)).cache.get? key = some c →
      (f.wrapper w).cache.get? key = some c) : (f.modifyWrapper w u).Kept := by
  have hsame : ∀ v, ((f.modifyWrapper w u).wrapper v).parent = (f.wrapper v).parent ∧
      ((f.modifyWrapper w u).wrapper v).key = (f.wrapper v).key ∧
      ((f.modifyWrapper w u).wrapper v).destroyed = (f.wrapper v).destroyed ∧
      ∀ key c, ((f.modifyWrapper w u).wrapper v).cache.get? key = some c →
        (f.wrapper v).cache.get? key = some c := by
    intro v
    rcases f.wrapper_modifyWrapper (g := u) w v with ⟨e, rfl⟩ | e <;> rw [e]
    · exact ⟨hparent, hkey, hdestroyed, hcache⟩
    · exact ⟨rfl, rfl, rfl, fun _ _ hc => hc⟩
  have hordered := h.toOrdered.modifyWrapper (w := w) (g := u) (fun p hp => hparent ▸ hp)
    fun c hc => by
      obtain ⟨key, hc⟩ := Entries.mem_values_iff.mp hc
      exact h.cached_lt w c (Entries.mem_values_of_get? (hcache key c hc))
  refine { hordered with after := ?_, place := ?_, alone := ?_ }
  · intro v key c hc
    exact h.after v key c ((hsame v).2.2.2 key c hc)
  · intro v key c hc hlive
    rw [(hsame c).2.2.1] at hlive
    rw [(hsame c).1, (hsame c).2.1]
    exact h.place v key c ((hsame v).2.2.2 key c hc) hlive
  · intro v hv
    rw [(hsame v).2.2.1] at hv
    rw [(hsame v).1]
    exact h.alone v hv

theorem dropCached (h : f.Kept) (w : WrapperRef) (key : String) : (f.dropCached w key).Kept := by
  rw [Forest.dropCached]
  split
  · exact h
  · refine Kept.of_fades (h.modifyWrapper rfl rfl rfl fun a c hc => ?_) (fades_destroy _ _)
    exact (Entries.get?_erase_eq_some_iff.mp hc).2

theorem wrapChild (h : f.Kept) (hw : w.index < f.wrappers.size) (key : String) (r : NodeRef) :
    (f.wrapChild w key r).2.Kept := by
  refine { (h.toOrdered.wrapChild hw key r).1 with after := ?_, place := ?_, alone := ?_ }
  · intro v k c hc
    rcases get?_wrapChild hw hc with ⟨rfl, -, rfl⟩ | hc
    · exact hw
    · exact h.after v k c hc
  · intro v k c hc hlive
    rcases get?_wrapChild hw hc with ⟨rfl, rfl, rfl⟩ | hc
    · rw [wrapper_wrapChild_new hw]
      exact ⟨rfl, rfl⟩
    · have hlt := h.cached_lt v c (Entries.mem_values_of_get? hc)
      obtain ⟨m, e⟩ := wrapper_wrapChild_old key r hw (Nat.ne_of_lt hlt)
      rw [e] at hlive ⊢
      exact h.place v k c hc hlive
  · intro v hv
    by_cases hnew : v.index = f.wrappers.size
    · obtain rfl : v = ⟨f.wrappers.size⟩ := by cases v; exact congrArg _ hnew
      rw [wrapper_wrapChild_new hw] at hv
      cases hv
    · obtain ⟨m, e⟩ := wrapper_wrapChild_old key r hw hnew
      rw [e] at hv ⊢
      exact h.alone v hv

theorem allocWrapper (h : f.Kept) (r : NodeRef) (g : Option Registry) :
    (f.allocWrapper (.ofNode r g)).2.Kept := by
  refine { h.toOrdered.allocWrapper (x := .ofNode r g) (fun _ hp => nomatch hp) rfl with
    after := ?_, place := ?_, alone := ?_ }
  · intro v k c hc
    exact h.after v k c (get?_allocWrapper hc)
  · intro v k c hc hlive
    have hc := get?_allocWrapper hc
    have hlt := h.cached_lt v c (Entries.mem_values_of_get? hc)
    rw [f.wrapper_allocWrapper_of_ne _ (Nat.ne_of_lt hlt)] at hlive ⊢
    exact h.place v k c hc hlive
  · intro v hv
    rcases f.wrapper_allocWrapper (.ofNode r g) v with ⟨e, -⟩ | e <;> rw [e] at hv ⊢
    · cases hv
    · exact h.alone v hv

end Kept

theorem Arises.kept {onRequest : Bool} (h : f.Arises onRequest) : f.Kept := by
  induction h with
  | start s =>
    constructor
    · constructor <;> intro w <;> rw [wrapper_start] <;> intro _ h <;> cases h
    · intro w k c hc
      rw [wrapper_start] at hc
      cases hc
    · intro w k c hc
      rw [wrapper_start] at hc
      cases hc
    · intro w hw
      rw [wrapper_start]
      rfl
  | wrap _ r g ih => exact ih.allocWrapper r g
  | store _ s ih => exact ih.store s
  | renewed _ hw key r ih =>
    exact (ih.dropCached _ key).wrapChild ((ih.toOrdered.dropCached _ key).2 ▸ hw) key r
  | dropped _ w key ih => exact ih.dropCached w key
  | tuned _ w hg ih =>
    refine ih.modifyWrapper hg.parent hg.key hg.destroyed fun k c hc => ?_
    rwa [hg.cache] at hc
  | destroyed _ _ w ih => exact ih.of_fades (fades_destroy _ w)

/-! ### Without destroying on request -/

namespace Lively

/-- Forgetting a wrapper destroys what it keeps and so on, and nothing that is still kept, because
a wrapper that is alive is kept in one place only. -/
theorem dropCached (h : f.Lively) (hk : f.Kept) (w : WrapperRef) (key : String) :
    (f.dropCached w key).Lively := by
  rw [Forest.dropCached]
  split
  · exact h
  rename_i c hc
  have hfade := (f.modifyWrapper w fun x => { x with cache := x.cache.erase key }).fades_destroy c
  have hold : ∀ v k c', ((f.modifyWrapper w fun x =>
      { x with cache := x.cache.erase key }).wrapper v).cache.get? k = some c' →
      (f.wrapper v).cache.get? k = some c' ∧ (v = w → k ≠ key) := by
    intro v k c' hc'
    by_cases hv : v = w
    · subst hv
      rw [wrapper_modifyWrapper_self (lt_size_of_mem_cache (Entries.mem_values_of_get? hc))] at hc'
      have hne := Entries.get?_erase_eq_some_iff.mp hc'
      exact ⟨hne.2, fun _ => hne.1⟩
    · rw [wrapper_modifyWrapper_of_ne hv] at hc'
      exact ⟨hc', fun e => (hv e).elim⟩
  intro v k c' hc'
  obtain ⟨hkept, hne⟩ := hold v k c' (hfade.get?_cache hc')
  have hlive := h v k c' hkept
  have hplace := hk.place v k c' hkept hlive
  rcases hfade.wrapper c' with e | ⟨-, hdoomed | ⟨d, hd, hdetached⟩⟩
  · rw [e]
    rcases f.wrapper_modifyWrapper (g := fun x => { x with cache := x.cache.erase key }) w c' with
      ⟨e, rfl⟩ | e <;> rw [e]
    exacts [hlive, hlive]
  · obtain rfl := List.mem_singleton.mp hdoomed
    obtain ⟨hparent, hkey⟩ := hk.place w key c' hc hlive
    have hv : v = w := Option.some.inj (hplace.1.symm.trans hparent)
    exact (hne hv (Option.some.inj (hplace.2.symm.trans hkey))).elim
  · obtain ⟨k', hd⟩ := Entries.mem_values_iff.mp hd
    have hparent := (hk.place d k' c' (hold d k' c' hd).1 hlive).1
    obtain rfl : v = d := Option.some.inj (hplace.1.symm.trans hparent)
    rw [hdetached] at hc'
    cases hc'

theorem wrapChild (h : f.Lively) (hk : f.Kept) (hw : w.index < f.wrappers.size) (key : String)
    (r : NodeRef) : (f.wrapChild w key r).2.Lively := by
  intro v k c hc
  rcases get?_wrapChild hw hc with ⟨-, -, rfl⟩ | hc
  · rw [wrapper_wrapChild_new hw]
    rfl
  · have hlt := hk.cached_lt v c (Entries.mem_values_of_get? hc)
    obtain ⟨m, e⟩ := wrapper_wrapChild_old key r hw (Nat.ne_of_lt hlt)
    rw [e]
    exact h v k c hc

theorem allocWrapper (h : f.Lively) (r : NodeRef) (g : Option Registry) :
    (f.allocWrapper (.ofNode r g)).2.Lively := by
  intro v k c hc
  rcases f.wrapper_allocWrapper (.ofNode r g) c with ⟨e, -⟩ | e <;> rw [e]
  · rfl
  · exact h v k c (get?_allocWrapper hc)

end Lively

/-- As long as no wrapper is destroyed on request, every kept wrapper is alive. -/
theorem Arises.lively (h : f.Arises false) : f.Lively := by
  induction h with
  | start s =>
    intro w k c hc
    rw [wrapper_start] at hc
    cases hc
  | wrap _ r g ih => exact ih.allocWrapper r g
  | store _ s ih => exact ih
  | @renewed _ h w hw key r ih =>
    have hdrop := (h.kept.toOrdered.dropCached w key).2
    exact (ih.dropCached h.kept _ key).wrapChild (h.kept.dropCached _ key) (hdrop ▸ hw) key r
  | dropped h w key ih => exact ih.dropCached h.kept w key
  | @tuned f _ w u hg ih =>
    intro v k c hc
    rw [(samePlace_modifyWrapper hg v).cache] at hc
    rw [(samePlace_modifyWrapper hg c).destroyed]
    exact ih v k c hc
  | destroyed _ hrequest => cases hrequest

/-! ### Asking for children -/

/-- What asking for a child does: there is none, or its kept wrapper is given, or a new one takes
the place of what was kept. -/
theorem child_cases (f : Forest) (w : WrapperRef) (key : String) :
    ((f.nodeAt w).children.get? key = none ∧ f.child w key = (none, f)) ∨
    (∃ c, (f.wrapper w).cache.get? key = some c ∧
      (f.nodeAt w).children.get? key = some (f.wrapper c).node ∧ f.child w key = (some c, f)) ∨
    ∃ r, (f.nodeAt w).children.get? key = some r ∧ f.child w key =
      (some ⟨(f.dropCached w key).wrappers.size⟩, ((f.dropCached w key).wrapChild w key r).2) := by
  rw [child]
  split
  · rename_i hnone
    exact .inl ⟨hnone, rfl⟩
  · rename_i r hr
    dsimp only
    split
    · rename_i c hc
      split
      · rename_i e
        subst e
        exact .inr (.inl ⟨c, hc, hr, rfl⟩)
      · exact .inr (.inr ⟨r, hr, rfl⟩)
    · exact .inr (.inr ⟨r, hr, rfl⟩)

theorem size_le_child (f : Forest) (w : WrapperRef) (key : String) :
    f.wrappers.size ≤ (f.child w key).2.wrappers.size := by
  rcases f.child_cases w key with ⟨-, e⟩ | ⟨c, -, -, e⟩ | ⟨r, -, e⟩
  · exact Nat.le_of_eq (by rw [e])
  · exact Nat.le_of_eq (by rw [e])
  · rw [e, size_wrapChild, size_dropCached]
    exact Nat.le_succ _

/-- What holds at first and survives asking for a child holds after going down. -/
theorem descend_closed {P : Forest → Prop} (hchild : ∀ g v key, P g → P (g.child v key).2)
    (w : WrapperRef) (path : Path) (hf : P f) : P (f.descend w path).2 := by
  induction path generalizing f w with
  | nil => exact hf
  | cons key rest ih =>
    have hchild := hchild f w key hf
    rw [descend]
    split
    · rename_i e
      rwa [e] at hchild
    · rename_i c g e
      rw [e] at hchild
      exact ih c hchild

theorem size_le_descend (f : Forest) (w : WrapperRef) (path : Path) :
    f.wrappers.size ≤ (f.descend w path).2.wrappers.size :=
  descend_closed (P := fun g => f.wrappers.size ≤ g.wrappers.size)
    (fun g v key hg => Nat.le_trans hg (g.size_le_child v key)) w path (Nat.le_refl _)

theorem Kept.child (h : f.Kept) (hw : w.index < f.wrappers.size) (key : String) :
    (f.child w key).2.Kept := by
  rcases f.child_cases w key with ⟨-, e⟩ | ⟨c, -, -, e⟩ | ⟨r, -, e⟩ <;> rw [e]
  exacts [h, h, (h.dropCached w key).wrapChild (by rwa [size_dropCached]) key r]

/-- Forgetting a wrapper gives nobody a parent and nobody a wrapper to keep. -/
theorem dropCached_loses (f : Forest) (w : WrapperRef) (key : String) (v : WrapperRef) :
    (∀ p, ((f.dropCached w key).wrapper v).parent = some p → (f.wrapper v).parent = some p) ∧
      ∀ k c, ((f.dropCached w key).wrapper v).cache.get? k = some c →
        (f.wrapper v).cache.get? k = some c := by
  rw [dropCached]
  split
  · exact ⟨fun _ hp => hp, fun _ _ hc => hc⟩
  rename_i d _
  have hlost : (∀ p, ((f.modifyWrapper w fun x =>
        { x with cache := x.cache.erase key }).wrapper v).parent = some p →
        (f.wrapper v).parent = some p) ∧
      ∀ k c, ((f.modifyWrapper w fun x =>
        { x with cache := x.cache.erase key }).wrapper v).cache.get? k = some c →
        (f.wrapper v).cache.get? k = some c := by
    rcases f.wrapper_modifyWrapper (g := fun x => { x with cache := x.cache.erase key }) w v with
      ⟨e, rfl⟩ | e <;> rw [e]
    · exact ⟨fun _ hp => hp, fun k c hc => (Entries.get?_erase_eq_some_iff.mp hc).2⟩
    · exact ⟨fun _ hp => hp, fun _ _ hc => hc⟩
  rcases (fades_destroy _ d).detached_or v with e | e <;> rw [e]
  · exact hlost
  · refine ⟨fun _ hp => ?_, fun _ _ hc => ?_⟩
    · cases hp
    · cases hc

/-- After asking for a child, a parent that was not there before is that of the new wrapper, and a
kept wrapper that was not there before is the new one. -/
theorem child_gains (f : Forest) (hw : w.index < f.wrappers.size) (key : String) (v : WrapperRef) :
    (∀ p, ((f.child w key).2.wrapper v).parent = some p →
      (f.wrapper v).parent = some p ∨ p = w) ∧
      ∀ k c, ((f.child w key).2.wrapper v).cache.get? k = some c →
        (f.wrapper v).cache.get? k = some c ∨ c.index = f.wrappers.size := by
  rcases f.child_cases w key with ⟨-, e⟩ | ⟨c, -, -, e⟩ | ⟨r, -, e⟩ <;> rw [e]
  · exact ⟨fun _ hp => .inl hp, fun _ _ hc => .inl hc⟩
  · exact ⟨fun _ hp => .inl hp, fun _ _ hc => .inl hc⟩
  have hw' : w.index < (f.dropCached w key).wrappers.size := by rwa [size_dropCached]
  refine ⟨fun p hp => ?_, fun k c hc => ?_⟩
  · by_cases hnew : v.index = (f.dropCached w key).wrappers.size
    · obtain rfl : v = ⟨(f.dropCached w key).wrappers.size⟩ := by cases v; exact congrArg _ hnew
      rw [wrapper_wrapChild_new hw'] at hp
      exact .inr (Option.some.inj hp).symm
    · obtain ⟨m, e⟩ := wrapper_wrapChild_old key r hw' hnew
      rw [e] at hp
      exact .inl ((f.dropCached_loses w key v).1 p hp)
  · rcases get?_wrapChild hw' hc with ⟨-, -, rfl⟩ | hc
    · exact .inr (size_dropCached f w key)
    · exact .inl ((f.dropCached_loses w key v).2 k c hc)

namespace Arises

variable {onRequest : Bool}

/-- Asking for a child leads from a forest that a program can come to, to another one. -/
theorem child (h : f.Arises onRequest) (hw : w.index < f.wrappers.size) (key : String) :
    (f.child w key).2.Arises onRequest := by
  rcases f.child_cases w key with ⟨-, e⟩ | ⟨c, -, -, e⟩ | ⟨r, -, e⟩ <;> rw [e]
  exacts [h, h, h.renewed hw key r]

theorem descend (h : f.Arises onRequest) (hw : w.index < f.wrappers.size) (path : Path) :
    (f.descend w path).2.Arises onRequest := by
  induction path generalizing f w with
  | nil => exact h
  | cons key rest ih =>
    have hchild := h.child hw key
    have hmade := (h.kept.toOrdered.child hw key).2
    rw [Forest.descend]
    split
    · rename_i e
      rwa [e] at hchild
    · rename_i e
      rw [e] at hchild hmade
      exact ih hchild (hmade _ rfl)

/-- So does bringing the kept wrappers back in line with the nodes. -/
theorem syncCache (h : f.Arises onRequest) (w : WrapperRef) :
    (f.syncCache w).Arises onRequest :=
  syncCacheTo_closed (fun _ v key hg => hg.dropped v key) _ w h

end Arises

end Forest

end LiveTree
