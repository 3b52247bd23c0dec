import LiveTree.Proofs.Tree.Announcement
import Mathlib.Logic.Function.Basic

/-! What wrappers hold back. Only announcements look at it: asking for children, forgetting them and
destroying them do the same whatever a wrapper holds back, and leave that as it is. -/

namespace LiveTree

namespace Forest

variable {f g : Forest} {v w : WrapperRef} {key : String} {held held' : Option (List Path)}

/-- Forests with the same cells and the same wrappers are the same. -/
theorem eq_of_wrappers (hstore : g.store = f.store) (hsize : g.wrappers.size = f.wrappers.size)
    (h : ∀ v, g.wrapper v = f.wrapper v) : g = f := by
  obtain ⟨s, a⟩ := f
  obtain ⟨t, b⟩ := g
  obtain rfl : t = s := hstore
  have hwrappers : b = a := by
    refine Array.ext hsize fun i hb ha => ?_
    have hi := h ⟨i⟩
    simpa [wrapper, Array.getD, hb, ha] using hi
  rw [hwrappers]

/-- The forest in which a wrapper holds something else back, or nothing. -/
def withHeld (f : Forest) (w : WrapperRef) (held : Option (List Path)) : Forest :=
  f.modifyWrapper w fun x => { x with batched := held }

@[simp] theorem store_withHeld (f : Forest) (w : WrapperRef) (held : Option (List Path)) :
    (f.withHeld w held).store = f.store := rfl

@[simp] theorem size_withHeld (f : Forest) (w : WrapperRef) (held : Option (List Path)) :
    (f.withHeld w held).wrappers.size = f.wrappers.size := size_modifyWrapper _ _ _

theorem wrapper_withHeld_self (hw : w.index < f.wrappers.size) (held : Option (List Path)) :
    (f.withHeld w held).wrapper w = { f.wrapper w with batched := held } :=
  wrapper_modifyWrapper_self hw

theorem wrapper_withHeld_of_ne (h : v ≠ w) (held : Option (List Path)) :
    (f.withHeld w held).wrapper v = f.wrapper v := wrapper_modifyWrapper_of_ne h

/-- Nothing else about wrappers changes. -/
theorem wrapper_withHeld (f : Forest) (w : WrapperRef) (held : Option (List Path))
    (v : WrapperRef) : ∃ b, (f.withHeld w held).wrapper v = { f.wrapper v with batched := b } := by
  rcases f.wrapper_modifyWrapper (g := fun x => { x with batched := held }) w v with ⟨e, rfl⟩ | e
  · exact ⟨held, e⟩
  · exact ⟨_, e⟩

@[simp] theorem node_withHeld (f : Forest) (w : WrapperRef) (held : Option (List Path))
    (v : WrapperRef) : ((f.withHeld w held).wrapper v).node = (f.wrapper v).node := by
  obtain ⟨b, e⟩ := f.wrapper_withHeld w held v
  rw [e]

@[simp] theorem cache_withHeld (f : Forest) (w : WrapperRef) (held : Option (List Path))
    (v : WrapperRef) : ((f.withHeld w held).wrapper v).cache = (f.wrapper v).cache := by
  obtain ⟨b, e⟩ := f.wrapper_withHeld w held v
  rw [e]

@[simp] theorem parent_withHeld (f : Forest) (w : WrapperRef) (held : Option (List Path))
    (v : WrapperRef) : ((f.withHeld w held).wrapper v).parent = (f.wrapper v).parent := by
  obtain ⟨b, e⟩ := f.wrapper_withHeld w held v
  rw [e]

@[simp] theorem destroyed_withHeld (f : Forest) (w : WrapperRef) (held : Option (List Path))
    (v : WrapperRef) : ((f.withHeld w held).wrapper v).destroyed = (f.wrapper v).destroyed := by
  obtain ⟨b, e⟩ := f.wrapper_withHeld w held v
  rw [e]

@[simp] theorem nodeAt_withHeld (f : Forest) (w : WrapperRef) (held : Option (List Path))
    (v : WrapperRef) : (f.withHeld w held).nodeAt v = f.nodeAt v := by
  rw [nodeAt, nodeAt, node_withHeld, store_withHeld]

/-- Every line stays. -/
@[simp] theorem line_withHeld (f : Forest) (w : WrapperRef) (held : Option (List Path))
    (v : WrapperRef) : (f.withHeld w held).line v = f.line v := by
  refine line_congr (P := fun _ => True) (fun a _ => ?_) (fun a _ => ?_) (fun _ _ _ _ => trivial)
    trivial
  · obtain ⟨b, e⟩ := f.wrapper_withHeld w held a
    rw [e]
    exact ⟨rfl, rfl, rfl⟩
  · rw [nodeAt_withHeld]

/-- What a wrapper has held back so far. -/
def collected (f : Forest) (w : WrapperRef) : List Path := (f.wrapper w).batched.getD []

theorem collected_withHeld_self (hw : w.index < f.wrappers.size) (held : Option (List Path)) :
    (f.withHeld w held).collected w = held.getD [] := by
  rw [collected, wrapper_withHeld_self hw]

theorem collected_withHeld_of_ne (h : v ≠ w) (held : Option (List Path)) :
    (f.withHeld w held).collected v = f.collected v := by
  rw [collected, wrapper_withHeld_of_ne h, collected]

theorem collectAt_eq (f : Forest) (w : WrapperRef) (paths : List Path) :
    f.collectAt w paths = f.withHeld w (some (f.collected w ++ paths)) := rfl

/-! ### In either order -/

/-- Two changes of wrappers can be made in either order if they can where they meet. -/
theorem modifyWrapper_comm {u u' : Wrapper → Wrapper} (h : v = w → ∀ x, u (u' x) = u' (u x)) :
    (f.modifyWrapper w u').modifyWrapper v u = (f.modifyWrapper v u).modifyWrapper w u' := by
  refine eq_of_wrappers rfl (by simp) fun a => ?_
  by_cases ha : a.index < f.wrappers.size
  · by_cases hv : a = v <;> by_cases hw : a = w
    · subst hv hw
      rw [wrapper_modifyWrapper_self (by simpa using ha), wrapper_modifyWrapper_self ha,
        wrapper_modifyWrapper_self (by simpa using ha), wrapper_modifyWrapper_self ha, h rfl]
    · subst hv
      rw [wrapper_modifyWrapper_self (by simpa using ha), wrapper_modifyWrapper_of_ne hw,
        wrapper_modifyWrapper_of_ne hw, wrapper_modifyWrapper_self ha]
    · subst hw
      rw [wrapper_modifyWrapper_of_ne hv, wrapper_modifyWrapper_self ha,
        wrapper_modifyWrapper_self (by simpa using ha), wrapper_modifyWrapper_of_ne hv]
    · rw [wrapper_modifyWrapper_of_ne hv, wrapper_modifyWrapper_of_ne hw,
        wrapper_modifyWrapper_of_ne hw, wrapper_modifyWrapper_of_ne hv]
  · rw [wrapper_of_size_le (by simpa using ha), wrapper_of_size_le (by simpa using ha)]

theorem withHeld_comm (h : v ≠ w) (held held' : Option (List Path)) :
    (f.withHeld w held).withHeld v held' = (f.withHeld v held').withHeld w held :=
  modifyWrapper_comm fun e => (h e).elim

theorem withHeld_withHeld (f : Forest) (w : WrapperRef) (held held' : Option (List Path)) :
    (f.withHeld w held).withHeld w held' = f.withHeld w held' := by
  refine eq_of_wrappers rfl (by simp) fun a => ?_
  by_cases hw : a = w
  · subst hw
    by_cases ha : a.index < f.wrappers.size
    · rw [wrapper_withHeld_self (by simpa using ha), wrapper_withHeld_self ha,
        wrapper_withHeld_self ha]
    · rw [wrapper_of_size_le (by simpa using ha), wrapper_of_size_le (by simpa using ha)]
  · rw [wrapper_withHeld_of_ne hw, wrapper_withHeld_of_ne hw, wrapper_withHeld_of_ne hw]

theorem withHeld_eq_self (h : (f.wrapper w).batched = held) : f.withHeld w held = f := by
  subst h
  refine eq_of_wrappers rfl (by simp) fun a => ?_
  rcases f.wrapper_modifyWrapper (g := fun x => { x with batched := (f.wrapper w).batched }) w a
    with ⟨e, rfl⟩ | e
  · exact e
  · exact e

theorem destroyTo_withHeld (n : ℕ) (f : Forest) (v : WrapperRef) :
    destroyTo n v (f.withHeld w held) = (destroyTo n v f).withHeld w held :=
  destroyTo_comm (φ := fun g => g.withHeld w held) (fun g => g.cache_withHeld w held)
    (fun _ _ => modifyWrapper_comm fun _ _ => rfl) n v f

theorem dropCached_withHeld (f : Forest) (v : WrapperRef) (key : String) :
    (f.withHeld w held).dropCached v key = (f.dropCached v key).withHeld w held := by
  rw [dropCached, dropCached, cache_withHeld]
  split
  · rfl
  · rename_i c _
    have herase : (f.withHeld w held).modifyWrapper v
        (fun x => { x with cache := x.cache.erase key }) =
        (f.modifyWrapper v fun x => { x with cache := x.cache.erase key }).withHeld w held :=
      modifyWrapper_comm fun _ _ => rfl
    rw [herase, destroy, destroyTo_withHeld, size_withHeld]
    rfl

theorem wrapChild_withHeld (hw : w.index < f.wrappers.size) (v : WrapperRef) (key : String)
    (r : NodeRef) : (f.withHeld w held).wrapChild v key r =
      ((f.wrapChild v key r).1, (f.wrapChild v key r).2.withHeld w held) := by
  have halloc : ((f.withHeld w held).allocWrapper (childWrapper v key r)).2 =
      (f.allocWrapper (childWrapper v key r)).2.withHeld w held := by
    refine eq_of_wrappers rfl (by simp) fun a => ?_
    by_cases ha : a.index = f.wrappers.size
    · have hne : a ≠ w := fun e => by rw [e] at ha; omega
      obtain rfl : a = ⟨f.wrappers.size⟩ := by cases a; exact congrArg _ ha
      have hnew := (f.withHeld w held).wrapper_allocWrapper_self (childWrapper v key r)
      simp only [allocWrapper, size_withHeld] at hnew
      exact hnew.trans ((wrapper_withHeld_of_ne hne _).trans
        (f.wrapper_allocWrapper_self (childWrapper v key r))).symm
    · rw [wrapper_allocWrapper_of_ne _ _ (by simpa using ha)]
      by_cases hne : a = w
      · subst hne
        rw [wrapper_withHeld_self hw, wrapper_withHeld_self (by simp; omega),
          wrapper_allocWrapper_of_ne _ _ ha]
      · rw [wrapper_withHeld_of_ne hne, wrapper_withHeld_of_ne hne,
          wrapper_allocWrapper_of_ne _ _ ha]
  rw [wrapChild_eq, wrapChild_eq, halloc, size_withHeld]
  exact congrArg (Prod.mk _) (modifyWrapper_comm fun _ _ => rfl)

/-- Asking for a child does the same, whatever a wrapper holds back. -/
theorem child_withHeld (hw : w.index < f.wrappers.size) (v : WrapperRef) (key : String) :
    (f.withHeld w held).child v key =
      ((f.child v key).1, (f.child v key).2.withHeld w held) := by
  rw [child, child, nodeAt_withHeld, cache_withHeld, dropCached_withHeld]
  split
  · rfl
  · rename_i r _
    rw [wrapChild_withHeld (by rwa [size_dropCached])]
    dsimp only
    split
    · rename_i c _
      rw [node_withHeld]
      split <;> rfl
    · rfl

/-! ### Who holds back -/

/-- Whether a wrapper holds notifications back. -/
def holding (f : Forest) (v : WrapperRef) : Bool := (f.wrapper v).batched.isSome

theorem lt_size_of_holding (h : f.holding v = true) : v.index < f.wrappers.size := by
  refine Nat.lt_of_not_le fun hle => ?_
  rw [holding, wrapper_of_size_le hle] at h
  cases h

theorem batched_of_holding (h : f.holding v = false) : (f.wrapper v).batched = none := by
  simpa [holding] using h

theorem holding_withHeld (h : w.index < f.wrappers.size ∨ held = none) :
    (f.withHeld w held).holding = Function.update f.holding w held.isSome := by
  funext v
  by_cases hv : v = w
  · subst hv
    rw [Function.update_self, holding]
    by_cases hmade : v.index < f.wrappers.size
    · rw [wrapper_withHeld_self hmade]
    · rw [h.resolve_left hmade, wrapper_of_size_le (by simpa using hmade)]
      rfl
  · rw [Function.update_of_ne hv, holding, wrapper_withHeld_of_ne hv, holding]

theorem batched_dropCached (f : Forest) (w : WrapperRef) (key : String) (v : WrapperRef) :
    ((f.dropCached w key).wrapper v).batched = (f.wrapper v).batched := by
  rw [dropCached]
  split
  · rfl
  · rename_i c _
    have hkept : ((f.modifyWrapper w fun x =>
        { x with cache := x.cache.erase key }).wrapper v).batched = (f.wrapper v).batched := by
      rcases f.wrapper_modifyWrapper (g := fun x => { x with cache := x.cache.erase key }) w v with
        ⟨e, rfl⟩ | e <;> rw [e]
    rcases (fades_destroy _ c).detached_or v with e | e <;> rw [e]
    exacts [hkept, hkept]

theorem batched_wrapChild (hw : w.index < f.wrappers.size) (key : String) (r : NodeRef)
    (v : WrapperRef) : ((f.wrapChild w key r).2.wrapper v).batched = (f.wrapper v).batched := by
  by_cases hnew : v.index = f.wrappers.size
  · obtain rfl : v = ⟨f.wrappers.size⟩ := by cases v; exact congrArg _ hnew
    rw [wrapper_wrapChild_new hw, wrapper_of_size_le (v := ⟨f.wrappers.size⟩) (Nat.le_refl _)]
    rfl
  · obtain ⟨m, e⟩ := wrapper_wrapChild_old key r hw hnew
    rw [e]

/-- Asking for a child leaves what wrappers hold back. -/
theorem batched_child (hw : w.index < f.wrappers.size) (key : String) (v : WrapperRef) :
    ((f.child w key).2.wrapper v).batched = (f.wrapper v).batched := by
  rcases f.child_cases w key with ⟨-, e⟩ | ⟨c, -, -, e⟩ | ⟨r, -, e⟩ <;> rw [e]
  rw [batched_wrapChild (by rwa [size_dropCached]), batched_dropCached]

theorem collected_child (hw : w.index < f.wrappers.size) (key : String) (v : WrapperRef) :
    (f.child w key).2.collected v = f.collected v := by
  rw [collected, batched_child hw, collected]

theorem holding_child (hw : w.index < f.wrappers.size) (key : String) :
    (f.child w key).2.holding = f.holding := by
  funext v
  rw [holding, batched_child hw, holding]

/-- What is announced is held back by a wrapper that held back before, if by any. -/
theorem collect_cases (f : Forest) (line : List Station) (paths : List Path) :
    f.collect line paths = f ∨
      ∃ v held, f.holding v = true ∧ f.collect line paths = f.withHeld v (some held) := by
  rw [collect]
  split
  · exact .inl rfl
  · rename_i q hq
    have hholds := List.find?_some hq
    exact .inr ⟨q.1, _, hholds, rfl⟩

theorem holding_collect (f : Forest) (line : List Station) (paths : List Path) :
    (f.collect line paths).holding = f.holding := by
  rcases f.collect_cases line paths with e | ⟨v, held, hv, e⟩ <;> rw [e]
  rw [holding_withHeld (.inl (lt_size_of_holding hv)), Option.isSome_some, ← hv,
    Function.update_eq_self]

theorem Kept.withHeld (h : f.Kept) (w : WrapperRef) (held : Option (List Path)) :
    (f.withHeld w held).Kept := h.modifyWrapper rfl rfl rfl fun _ _ hc => hc

theorem Kept.collect (h : f.Kept) (line : List Station) (paths : List Path) :
    (f.collect line paths).Kept := by
  rcases f.collect_cases line paths with e | ⟨v, held, -, e⟩ <;> rw [e]
  exacts [h, h.withHeld v _]

/-! ### Along lines -/

section Line

variable {line : List Station} (h : ∀ q ∈ line, q.1 ≠ w)

include h

/-- A line that does not go through a wrapper tells the same, whatever the wrapper holds back. -/
theorem tellings_withHeld (paths : List Path) :
    (f.withHeld w held).tellings line paths = f.tellings line paths := by
  induction line with
  | nil => rfl
  | cons q rest ih =>
    obtain ⟨hq, hrest⟩ := List.forall_mem_cons.mp h
    have e := f.wrapper_withHeld_of_ne hq held
    cases hheld : (f.wrapper q.1).batched with
    | some _ => rw [tellings_of_some hheld, tellings_of_some (e ▸ hheld)]
    | none => rw [tellings_of_none hheld, tellings_of_none (e ▸ hheld), e, ih hrest]

theorem collect_withHeld (paths : List Path) :
    (f.withHeld w held).collect line paths = (f.collect line paths).withHeld w held := by
  induction line with
  | nil => rfl
  | cons q rest ih =>
    obtain ⟨hq, hrest⟩ := List.forall_mem_cons.mp h
    have e := f.wrapper_withHeld_of_ne hq held
    cases hheld : (f.wrapper q.1).batched with
    | some _ =>
      rw [collect_of_some hheld, collect_of_some (e ▸ hheld)]
      exact modifyWrapper_comm fun e => (hq e).elim
    | none => rw [collect_of_none hheld, collect_of_none (e ▸ hheld), ih hrest]

/-- Nor does the wrapper collect anything. -/
theorem collected_collect (paths : List Path) :
    (f.collect line paths).collected w = f.collected w := by
  rw [collect]
  split
  · rfl
  · rename_i q hq
    exact collected_withHeld_of_ne (h q (List.mem_of_find?_eq_some hq)).symm _

end Line

end Forest

end LiveTree
