import LiveTree.Proofs.Tree.Arising

/-! Going down a path and up again. Whatever has happened to a forest before, the wrapper that a
path leads to stands on the node that the path leads to, its way up goes through the wrapper that
was asked, and asking again gives the same wrapper. Going down changes nothing but the wrappers
below, and what is kept on the way. -/

namespace LiveTree

/-- The node that a path leads to. -/
def Store.follow (s : Store) (r : NodeRef) : Path → Option NodeRef
  | [] => some r
  | key :: rest => ((s.node r).children.get? key).bind (s.follow · rest)

namespace Forest

variable {f g : Forest} {w c d : WrapperRef} {key : String} {p : Path} {n m : ℕ}

/-! ### Up -/

/-- More steps than there are wrappers before this one find no more ancestors. -/
theorem ancestorsTo_eq (h : f.Ordered) (hn : w.index ≤ n) :
    f.ancestorsTo n w = f.ancestors w := by
  have hto : ∀ n m w, w.index ≤ n → w.index ≤ m → f.ancestorsTo n w = f.ancestorsTo m w := by
    intro n
    induction n with
    | zero =>
      intro m w hn hm
      have hnone : (f.wrapper w).parent = none := by
        cases hp : (f.wrapper w).parent with
        | none => rfl
        | some p => have := h.parent_lt w p hp; omega
      cases m <;> simp [ancestorsTo, hnone]
    | succ n ih =>
      intro m w hn hm
      cases hp : (f.wrapper w).parent with
      | none => cases m <;> simp [ancestorsTo, hp]
      | some p =>
        have hlt := h.parent_lt w p hp
        obtain ⟨m, rfl⟩ : ∃ k, m = k + 1 := ⟨m - 1, by omega⟩
        simp only [ancestorsTo, hp]
        rw [ih m p (by omega) (by omega)]
  exact hto n w.index w hn (Nat.le_refl _)

theorem ancestors_eq_nil (h : (f.wrapper w).parent = none) : f.ancestors w = [] := by
  rw [ancestors]
  cases w.index <;> simp [ancestorsTo, h]

theorem ancestors_eq_cons (h : f.Ordered) (hparent : (f.wrapper c).parent = some w) :
    f.ancestors c = w :: f.ancestors w := by
  have hlt := h.parent_lt c w hparent
  obtain ⟨n, hn⟩ : ∃ n, c.index = n + 1 := ⟨c.index - 1, by omega⟩
  rw [ancestors, hn, ancestorsTo, hparent]
  exact congrArg (w :: ·) (ancestorsTo_eq h (by omega))

/-- Whether keys lead from a wrapper down to another, each wrapper on the way being the parent of
the next, and its node still holding the next one's under the key. -/
inductive Leads (f : Forest) : WrapperRef → Path → WrapperRef → Prop
  | here (w : WrapperRef) : Leads f w [] w
  | child {w c d : WrapperRef} {key : String} {rest : Path}
      (hparent : (f.wrapper c).parent = some w) (hkey : (f.wrapper c).key = some key)
      (hnode : (f.nodeAt w).children.get? key = some (f.wrapper c).node) (h : Leads f c rest d) :
      Leads f w (key :: rest) d

theorem keyInParent_eq_some (hparent : (f.wrapper c).parent = some w)
    (hkey : (f.wrapper c).key = some key)
    (hnode : (f.nodeAt w).children.get? key = some (f.wrapper c).node) :
    f.keyInParent c = some key := by
  simp [keyInParent, hparent, hkey, hnode]

namespace Leads

/-- The ancestors of the lower wrapper are those on the way, the upper one and its ancestors. -/
theorem exists_ancestors (h : f.Leads w p c) (ho : f.Ordered) :
    ∃ between, between.length = p.length ∧ c :: f.ancestors c = between ++ w :: f.ancestors w := by
  induction h with
  | here w => exact ⟨[], rfl, rfl⟩
  | @child w c d key rest hparent _ _ _ ih =>
    obtain ⟨between, hlength, e⟩ := ih
    refine ⟨between ++ [c], by simp [hlength], ?_⟩
    rw [e, ancestors_eq_cons ho hparent]
    simp

theorem length_ancestors (h : f.Leads w p c) (ho : f.Ordered) :
    (f.ancestors c).length = (f.ancestors w).length + p.length := by
  obtain ⟨between, hlength, e⟩ := h.exists_ancestors ho
  have := congrArg List.length e
  simp only [List.length_cons, List.length_append] at this
  omega

theorem root_eq (h : f.Leads w p c) (ho : f.Ordered) : f.root c = f.root w := by
  obtain ⟨between, -, e⟩ := h.exists_ancestors ho
  have hroot : ∀ v, f.root v = (v :: f.ancestors v).getLast?.getD v := by
    intro v
    rw [root, List.getLast?_cons]
    rfl
  rw [hroot c, hroot w, e, List.getLast?_append, List.getLast?_cons]
  rfl

theorem path_eq (h : f.Leads w p c) (ho : f.Ordered) : f.path c = f.path w ++ p := by
  induction h with
  | here w => simp
  | @child w c d key rest hparent hkey hnode _ ih =>
    have hc : f.path c = f.path w ++ [key] := by
      simp [path, ancestors_eq_cons ho hparent, keyInParent_eq_some hparent hkey hnode]
    rw [ih, hc, List.append_assoc, List.singleton_append]

/-- The lower wrapper stands on the node that the path leads to. -/
theorem follow_eq (h : f.Leads w p c) :
    f.store.follow (f.wrapper w).node p = some (f.wrapper c).node := by
  induction h with
  | here w => rfl
  | child _ _ hnode _ ih =>
    rw [nodeAt] at hnode
    rw [Store.follow, hnode]
    exact ih

end Leads

/-! ### Down -/

/-- Whether going down from a wrapper along keys meets kept wrappers only, which are up to date. -/
inductive Along (f : Forest) : WrapperRef → Path → WrapperRef → Prop
  | here (w : WrapperRef) : Along f w [] w
  | child {w c d : WrapperRef} {key : String} {rest : Path}
      (hkept : (f.wrapper w).cache.get? key = some c)
      (hnode : (f.nodeAt w).children.get? key = some (f.wrapper c).node) (h : Along f c rest d) :
      Along f w (key :: rest) d

namespace Along

/-- Going down along kept wrappers changes nothing. -/
theorem descend_eq (h : f.Along w p c) : f.descend w p = (some c, f) := by
  induction h with
  | here w => rfl
  | @child w c d key rest hkept hnode _ ih =>
    have hchild : f.child w key = (some c, f) := by
      simp [Forest.child, hnode, hkept]
    rw [descend, hchild]
    exact ih

theorem leads (h : f.Along w p c) (hk : f.Kept) (hl : f.Lively) : f.Leads w p c := by
  induction h with
  | here w => exact .here w
  | @child w c d key rest hkept hnode _ ih =>
    have hplace := hk.place w key c hkept (hl w key c hkept)
    exact .child hplace.1 hplace.2 hnode ih

theorem live (h : f.Along w p c) (hl : f.Lively) (hw : (f.wrapper w).destroyed = false) :
    (f.wrapper c).destroyed = false := by
  induction h with
  | here w => exact hw
  | child hkept _ _ ih => exact ih (hl _ _ _ hkept)

end Along

/-- What going down from a wrapper leaves as it is: the store, the wrappers before this one and,
except for what it keeps, the wrapper itself. The others stay on their nodes. -/
structure Beyond (w : WrapperRef) (f g : Forest) : Prop where
  store : g.store = f.store
  size_le : f.wrappers.size ≤ g.wrappers.size
  before : ∀ v, v.index < w.index → g.wrapper v = f.wrapper v
  self : ∃ cache, g.wrapper w = { f.wrapper w with cache }
  node : ∀ v, v.index < f.wrappers.size → (g.wrapper v).node = (f.wrapper v).node

namespace Beyond

theorem refl (w : WrapperRef) (f : Forest) : Beyond w f f :=
  ⟨rfl, Nat.le_refl _, fun _ _ => rfl, ⟨_, rfl⟩, fun _ _ => rfl⟩

/-- Going on from a later wrapper leaves even more as it is. -/
theorem trans {h : Forest} (hfg : Beyond w f g) (hgh : Beyond c g h) (hlt : w.index < c.index) :
    Beyond w f h where
  store := hgh.store.trans hfg.store
  size_le := Nat.le_trans hfg.size_le hgh.size_le
  before v hv := (hgh.before v (by omega)).trans (hfg.before v hv)
  self := hgh.before w hlt ▸ hfg.self
  node v hv := (hgh.node v (by have := hfg.size_le; omega)).trans (hfg.node v hv)

/-- So does going on from the same wrapper. -/
theorem again {h : Forest} (hfg : Beyond w f g) (hgh : Beyond w g h) : Beyond w f h where
  store := hgh.store.trans hfg.store
  size_le := Nat.le_trans hfg.size_le hgh.size_le
  before v hv := (hgh.before v hv).trans (hfg.before v hv)
  self := by
    obtain ⟨cache, e⟩ := hfg.self
    obtain ⟨cache', e'⟩ := hgh.self
    exact ⟨cache', by rw [e', e]⟩
  node v hv := (hgh.node v (Nat.lt_of_lt_of_le hv hfg.size_le)).trans (hfg.node v hv)

theorem nodeAt_eq (h : Beyond w f g) : g.nodeAt w = f.nodeAt w := by
  obtain ⟨cache, e⟩ := h.self
  rw [nodeAt, nodeAt, h.store, e]

end Beyond

/-- What is destroyed with a wrapper was made after it. -/
theorem Fades.wrapper_of_lt {v : WrapperRef} (h : Fades [c] f g) (hk : f.Kept)
    (hv : v.index < c.index) : g.wrapper v = f.wrapper v := by
  obtain ⟨n, hn⟩ : ∃ n, v.index = n := ⟨_, rfl⟩
  induction n using Nat.strongRecOn generalizing v with
  | ind n ih =>
    rcases h.wrapper v with e | ⟨-, hdoomed | ⟨d, hd, hdetached⟩⟩
    · exact e
    · rw [List.mem_singleton.mp hdoomed] at hv
      omega
    · -- a destroyed wrapper that kept this one came before it, so it was not destroyed
      obtain ⟨key, hd⟩ := Entries.mem_values_iff.mp hd
      have hlt := hk.after d key v hd
      have hsame := ih d.index (by omega) (v := d) (by omega) rfl
      rw [← hsame, hdetached] at hd
      cases hd

theorem Kept.beyond_dropCached (h : f.Kept) (w : WrapperRef) (key : String) :
    Beyond w f (f.dropCached w key) := by
  rw [Forest.dropCached]
  split
  · exact .refl w f
  rename_i c hc
  have hw := lt_size_of_mem_cache (Entries.mem_values_of_get? hc)
  have herase : (f.modifyWrapper w fun x => { x with cache := x.cache.erase key }).Kept := by
    refine h.modifyWrapper rfl rfl rfl fun k c hc => ?_
    exact (Entries.get?_erase_eq_some_iff.mp hc).2
  have hfade := (f.modifyWrapper w fun x => { x with cache := x.cache.erase key }).fades_destroy c
  have hlt := h.after w key c hc
  refine ⟨hfade.store, ?_, ?_, ?_, ?_⟩
  · exact Nat.le_of_eq (by rw [hfade.size, size_modifyWrapper])
  · intro v hv
    have hne : v ≠ w := fun e => Nat.ne_of_lt hv (congrArg WrapperRef.index e)
    rw [hfade.wrapper_of_lt herase (Nat.lt_trans hv hlt), wrapper_modifyWrapper_of_ne hne]
  · rw [hfade.wrapper_of_lt herase hlt, wrapper_modifyWrapper_self hw]
    exact ⟨_, rfl⟩
  · intro v _
    have hnode : ((f.modifyWrapper w fun x => { x with cache := x.cache.erase key }).wrapper v).node
        = (f.wrapper v).node := by
      rcases f.wrapper_modifyWrapper (g := fun x => { x with cache := x.cache.erase key }) w v with
        ⟨e, rfl⟩ | e <;> rw [e]
    rcases hfade.detached_or v with e | e <;> rw [e]
    exacts [hnode, hnode]

theorem beyond_wrapChild (hw : w.index < f.wrappers.size) (key : String) (r : NodeRef) :
    Beyond w f (f.wrapChild w key r).2 where
  store := rfl
  size_le := by rw [size_wrapChild]; omega
  before v hv := by
    have hne : v ≠ w := fun e => Nat.ne_of_lt hv (congrArg WrapperRef.index e)
    exact wrapper_wrapChild_of_ne hne (by omega)
  self := ⟨_, wrapper_wrapChild_self hw⟩
  node v hv := by
    obtain ⟨cache, e⟩ := wrapper_wrapChild_old key r hw (Nat.ne_of_lt hv)
    rw [e]

theorem Kept.beyond_child (h : f.Kept) (hw : w.index < f.wrappers.size) (key : String) :
    Beyond w f (f.child w key).2 := by
  rcases f.child_cases w key with ⟨-, e⟩ | ⟨c, -, -, e⟩ | ⟨r, -, e⟩ <;> rw [e]
  · exact .refl w f
  · exact .refl w f
  · have hdrop := h.beyond_dropCached w key
    exact hdrop.again (beyond_wrapChild (Nat.lt_of_lt_of_le hw hdrop.size_le) key r)

/-- What asking a wrapper for a child does when there is one: the child's wrapper is kept from then
on, and all but what was made after the asked wrapper stays as it is. -/
structure Asks (f : Forest) (w : WrapperRef) (key : String) (c : WrapperRef) (g : Forest) :
    Prop where
  kept : g.Kept
  made : c.index < g.wrappers.size
  after : w.index < c.index
  cache : (g.wrapper w).cache.get? key = some c
  node : (g.nodeAt w).children.get? key = some (g.wrapper c).node
  beyond : Beyond w f g

theorem Kept.asks (h : f.Kept) (hw : w.index < f.wrappers.size)
    (hchild : f.child w key = (some c, g)) : Asks f w key c g := by
  have hkept := h.child hw key
  have hbeyond := h.beyond_child hw key
  rw [hchild] at hkept hbeyond
  rcases f.child_cases w key with ⟨-, e⟩ | ⟨c', hcache, hnode, e⟩ | ⟨r, hr, e⟩ <;>
    rw [hchild] at e <;> cases e
  · exact ⟨hkept, h.cached_lt w c (Entries.mem_values_of_get? hcache), h.after w key c hcache,
      hcache, hnode, hbeyond⟩
  · have hw' : w.index < (f.dropCached w key).wrappers.size := by rwa [size_dropCached]
    refine ⟨hkept, ?_, hw', ?_, ?_, hbeyond⟩
    · rw [size_wrapChild]
      exact Nat.lt_succ_self _
    · rw [wrapper_wrapChild_self hw']
      exact Entries.get?_insert_self _ _ _
    · rw [hbeyond.nodeAt_eq, wrapper_wrapChild_new hw']
      exact hr

/-- Going down a path that leads somewhere keeps all wrappers on the way, so that going down again
meets them. -/
theorem Kept.descend (h : f.Kept) (hw : w.index < f.wrappers.size)
    (hget : f.descend w p = (some c, g)) :
    g.Along w p c ∧ g.Kept ∧ Beyond w f g ∧ c.index < g.wrappers.size := by
  induction p generalizing f w with
  | nil =>
    cases hget
    exact ⟨.here c, h, .refl c g, hw⟩
  | cons key rest ih =>
    rw [Forest.descend] at hget
    split at hget
    · cases hget
    rename_i c₁ f₁ hchild
    have hasks := h.asks hw hchild
    obtain ⟨halong, hkept, hbeyond, hmade⟩ := ih hasks.kept hasks.made hget
    have hself := hbeyond.before w hasks.after
    refine ⟨.child (c := c₁) ?_ ?_ halong, hkept, hasks.beyond.trans hbeyond hasks.after, hmade⟩
    · rw [hself]
      exact hasks.cache
    · rw [nodeAt, hbeyond.store, hself, hbeyond.node c₁ hasks.made]
      exact hasks.node

/-- In every forest that a program can come to without destroying wrappers on request, a path that
leads anywhere from a living wrapper leads to a living one: it stands on the node that the path
leads to, the keys from the root to it are those to the upper wrapper and then the path, it is that
much deeper and under the same root, and going down the path again gives the same wrapper. -/
theorem descend_navigates (h : f.Arises false) (hw : w.index < f.wrappers.size)
    (hlive : (f.wrapper w).destroyed = false) (hget : f.descend w p = (some c, g)) :
    (g.wrapper c).destroyed = false ∧
      f.store.follow (f.wrapper w).node p = some (g.wrapper c).node ∧
      g.path c = g.path w ++ p ∧
      (g.ancestors c).length = (g.ancestors w).length + p.length ∧
      g.root c = g.root w ∧
      g.descend w p = (some c, g) := by
  obtain ⟨halong, hkept, hbeyond, -⟩ := h.kept.descend hw hget
  have hlively : g.Lively := by
    have harises := h.descend hw p
    rw [hget] at harises
    exact harises.lively
  have hleads := halong.leads hkept hlively
  have hsame : (g.wrapper w).node = (f.wrapper w).node ∧
      (g.wrapper w).destroyed = (f.wrapper w).destroyed := by
    obtain ⟨cache, e⟩ := hbeyond.self
    rw [e]
    exact ⟨rfl, rfl⟩
  refine ⟨halong.live hlively (hsame.2.trans hlive), ?_, hleads.path_eq hkept.toOrdered,
    hleads.length_ancestors hkept.toOrdered, hleads.root_eq hkept.toOrdered, halong.descend_eq⟩
  rw [← hbeyond.store, ← hsame.1]
  exact hleads.follow_eq

end Forest

/-- A form with an address in it, which has a city. -/
def Store.addressForm : Store :=
  let s := (Store.initial.allocNode { Builtin.node "city" Builtin.property .plain with
    default := .str "Ghent" }).2
  let s := (s.allocNode { Builtin.node "address" Builtin.property .plain with
    children := .ofList [("city", ⟨8⟩)] }).2
  (s.allocNode { Builtin.node "form" Builtin.property .plain with
    children := .ofList [("address", ⟨9⟩)] }).2

/-- The form under a wrapper. -/
def Forest.wrappedForm : Forest :=
  ((Forest.mk .addressForm #[]).allocWrapper (.ofNode ⟨10⟩ none)).2

theorem wrappedForm_arises (onRequest : Bool) : Forest.wrappedForm.Arises onRequest :=
  (Forest.Arises.start .addressForm).wrap ⟨10⟩ none

theorem wrappedForm_navigates :
    ((Forest.wrappedForm.descend ⟨0⟩ ["address", "city"]).2.wrapper ⟨2⟩).destroyed = false ∧
      Store.addressForm.follow ⟨10⟩ ["address", "city"] = some ⟨8⟩ ∧
      (Forest.wrappedForm.descend ⟨0⟩ ["address", "city"]).2.path ⟨2⟩ = ["address", "city"] := by
  have hget : Forest.wrappedForm.descend ⟨0⟩ ["address", "city"] =
      (some ⟨2⟩, (Forest.wrappedForm.descend ⟨0⟩ ["address", "city"]).2) := rfl
  obtain ⟨hlive, hnode, hpath, -⟩ :=
    Forest.descend_navigates (wrappedForm_arises false) (by decide) rfl hget
  exact ⟨hlive, hnode, hpath⟩

end LiveTree
