import LiveTree.Tree.Forest
import Mathlib.Data.Nat.Notation

/-! The wrappers of a forest. A wrapper is made after its parent, and the wrappers that are kept for
children have been made. Making, keeping and destroying wrappers leaves it so. -/

namespace LiveTree

namespace Forest

variable {f : Forest} {w : WrapperRef}

theorem wrapper_modifyWrapper {g : Wrapper → Wrapper} (f : Forest) (w v : WrapperRef) :
    (f.modifyWrapper w g).wrapper v = g (f.wrapper w) ∧ v = w ∨
      (f.modifyWrapper w g).wrapper v = f.wrapper v := by
  by_cases hv : v.index < f.wrappers.size
  · by_cases e : w.index = v.index
    · left
      obtain ⟨i⟩ := w
      obtain ⟨j⟩ := v
      cases e
      exact ⟨by simp [modifyWrapper, wrapper, Array.getD, hv], rfl⟩
    · exact .inr (by simp [modifyWrapper, wrapper, Array.getD, hv, e])
  · exact .inr (by simp [modifyWrapper, wrapper, Array.getD, hv])

theorem wrapper_allocWrapper (f : Forest) (x : Wrapper) (v : WrapperRef) :
    (f.allocWrapper x).2.wrapper v = x ∧ v.index = f.wrappers.size ∨
      (f.allocWrapper x).2.wrapper v = f.wrapper v := by
  by_cases hv : v.index < f.wrappers.size
  · exact .inr (by
      simp [allocWrapper, wrapper, Array.getD, hv, Nat.lt_succ_of_lt hv, Array.getElem_push_lt hv])
  · by_cases e : v.index = f.wrappers.size
    · exact .inl ⟨by simp [allocWrapper, wrapper, Array.getD, e], e⟩
    · have hv' : ¬ v.index < f.wrappers.size + 1 := by omega
      exact .inr (by simp [allocWrapper, wrapper, Array.getD, hv, hv'])

theorem wrapper_modifyWrapper_self {g : Wrapper → Wrapper} (hw : w.index < f.wrappers.size) :
    (f.modifyWrapper w g).wrapper w = g (f.wrapper w) := by
  simp [modifyWrapper, wrapper, Array.getD, hw]

theorem wrapper_modifyWrapper_of_ne {g : Wrapper → Wrapper} {v : WrapperRef} (h : v ≠ w) :
    (f.modifyWrapper w g).wrapper v = f.wrapper v :=
  (f.wrapper_modifyWrapper w v).resolve_left fun e => h e.2

theorem wrapper_allocWrapper_self (f : Forest) (x : Wrapper) :
    (f.allocWrapper x).2.wrapper (f.allocWrapper x).1 = x := by
  simp [allocWrapper, wrapper, Array.getD]

theorem wrapper_allocWrapper_of_ne {v : WrapperRef} (f : Forest) (x : Wrapper)
    (h : v.index ≠ f.wrappers.size) :
    (f.allocWrapper x).2.wrapper v = f.wrapper v :=
  (f.wrapper_allocWrapper x v).resolve_left fun e => h e.2

/-- A wrapper that has not been made reads as an empty one. -/
theorem wrapper_of_size_le {v : WrapperRef} (h : f.wrappers.size ≤ v.index) :
    f.wrapper v = default := by
  simp [wrapper, Array.getD, Nat.not_lt.mpr h]

theorem wrapper_start (s : Store) (w : WrapperRef) : (Forest.mk s #[]).wrapper w = default :=
  wrapper_of_size_le (Nat.zero_le _)

/-- The wrapper of a node keeps nothing when it is made. -/
theorem get?_allocWrapper {v c : WrapperRef} {r : NodeRef} {g : Option Registry} {k : String}
    (hc : ((f.allocWrapper (.ofNode r g)).2.wrapper v).cache.get? k = some c) :
    (f.wrapper v).cache.get? k = some c := by
  rcases f.wrapper_allocWrapper (.ofNode r g) v with ⟨e, -⟩ | e <;> rw [e] at hc
  · cases hc
  · exact hc

/-- A wrapper that keeps another has been made. -/
theorem lt_size_of_mem_cache {c : WrapperRef} (h : c ∈ (f.wrapper w).cache.values) :
    w.index < f.wrappers.size := by
  refine Nat.lt_of_not_le fun hle => ?_
  rw [wrapper_of_size_le hle] at h
  cases h

@[simp] theorem size_modifyWrapper (f : Forest) (w : WrapperRef) (g : Wrapper → Wrapper) :
    (f.modifyWrapper w g).wrappers.size = f.wrappers.size := by
  simp [modifyWrapper]

@[simp] theorem size_allocWrapper (f : Forest) (x : Wrapper) :
    (f.allocWrapper x).2.wrappers.size = f.wrappers.size + 1 := by
  simp [allocWrapper]

section WrapChild

variable {key : String} {r : NodeRef}

/-- The wrapper of a child as it is made. -/
def childWrapper (w : WrapperRef) (key : String) (r : NodeRef) : Wrapper :=
  { Wrapper.ofNode r none with parent := some w, key := some key }

theorem wrapChild_eq (f : Forest) (w : WrapperRef) (key : String) (r : NodeRef) :
    f.wrapChild w key r = (⟨f.wrappers.size⟩,
      (f.allocWrapper (childWrapper w key r)).2.modifyWrapper w fun x =>
        { x with cache := x.cache.insert key ⟨f.wrappers.size⟩ }) := rfl

@[simp] theorem store_wrapChild : (f.wrapChild w key r).2.store = f.store := rfl

@[simp] theorem size_wrapChild :
    (f.wrapChild w key r).2.wrappers.size = f.wrappers.size + 1 := by
  rw [wrapChild_eq, size_modifyWrapper, size_allocWrapper]

theorem wrapper_wrapChild_new (hw : w.index < f.wrappers.size) :
    (f.wrapChild w key r).2.wrapper ⟨f.wrappers.size⟩ = childWrapper w key r := by
  have hne : (⟨f.wrappers.size⟩ : WrapperRef) ≠ w := fun e =>
    Nat.ne_of_gt hw (congrArg WrapperRef.index e)
  rw [wrapChild_eq, wrapper_modifyWrapper_of_ne hne]
  exact f.wrapper_allocWrapper_self _

theorem wrapper_wrapChild_self (hw : w.index < f.wrappers.size) :
    (f.wrapChild w key r).2.wrapper w =
      { f.wrapper w with cache := (f.wrapper w).cache.insert key ⟨f.wrappers.size⟩ } := by
  rw [wrapChild_eq, wrapper_modifyWrapper_self, wrapper_allocWrapper_of_ne _ _ (Nat.ne_of_lt hw)]
  rw [size_allocWrapper]
  exact Nat.lt_succ_of_lt hw

theorem wrapper_wrapChild_of_ne {v : WrapperRef} (h : v ≠ w) (h' : v.index ≠ f.wrappers.size) :
    (f.wrapChild w key r).2.wrapper v = f.wrapper v := by
  rw [wrapChild_eq, wrapper_modifyWrapper_of_ne h, wrapper_allocWrapper_of_ne _ _ h']

/-- A wrapper that was there keeps everything but what it keeps. -/
theorem wrapper_wrapChild_old {v : WrapperRef} (key : String) (r : NodeRef)
    (hw : w.index < f.wrappers.size) (h : v.index ≠ f.wrappers.size) :
    ∃ m, (f.wrapChild w key r).2.wrapper v = { f.wrapper v with cache := m } := by
  by_cases hv : v = w
  · subst hv
    exact ⟨_, wrapper_wrapChild_self hw⟩
  · exact ⟨_, wrapper_wrapChild_of_ne hv h⟩

/-- A kept wrapper is the new one, or it was kept before. -/
theorem get?_wrapChild {v c : WrapperRef} {k : String} (hw : w.index < f.wrappers.size)
    (hc : ((f.wrapChild w key r).2.wrapper v).cache.get? k = some c) :
    v = w ∧ k = key ∧ c = ⟨f.wrappers.size⟩ ∨ (f.wrapper v).cache.get? k = some c := by
  by_cases hv : v = w
  · subst hv
    rw [wrapper_wrapChild_self hw] at hc
    by_cases hk : k = key
    · subst hk
      rw [Entries.get?_insert_self] at hc
      exact .inl ⟨rfl, rfl, (Option.some.inj hc).symm⟩
    · exact .inr (Entries.get?_insert_of_ne _ _ hk ▸ hc)
  · by_cases hnew : v.index = f.wrappers.size
    · obtain rfl : v = ⟨f.wrappers.size⟩ := by cases v; exact congrArg _ hnew
      rw [wrapper_wrapChild_new hw] at hc
      cases hc
    · rw [wrapper_wrapChild_of_ne hv hnew] at hc
      exact .inr hc

end WrapChild

/-! ### Destroying, and passes over what is kept -/

/-- What holds at first and survives detaching a wrapper holds after wrappers are destroyed. -/
theorem destroyTo_closed {P : Forest → Prop}
    (hdetach : ∀ g v, P g → P (g.modifyWrapper v fun x =>
      { x with cache := ∅, subscribers := [], parent := none, destroyed := true }))
    (n : ℕ) (w : WrapperRef) (hf : P f) : P (destroyTo n w f) := by
  induction n generalizing f w with
  | zero => exact hf
  | succ n ih => exact hdetach _ w (List.foldlRecOn _ _ hf fun _ hg c _ => ih c hg)

/-- What keeps what wrappers keep, and may as well be done after detaching a wrapper, may as well be
done after wrappers are destroyed. -/
theorem destroyTo_comm {φ : Forest → Forest}
    (hcache : ∀ g v, ((φ g).wrapper v).cache = (g.wrapper v).cache)
    (hdetach : ∀ g v, (φ g).modifyWrapper v (fun x =>
        { x with cache := ∅, subscribers := [], parent := none, destroyed := true }) =
      φ (g.modifyWrapper v fun x =>
        { x with cache := ∅, subscribers := [], parent := none, destroyed := true }))
    (n : ℕ) (w : WrapperRef) (f : Forest) : destroyTo n w (φ f) = φ (destroyTo n w f) := by
  induction n generalizing w f with
  | zero => rfl
  | succ n ih =>
    have hfold : ∀ (l : List WrapperRef) (f : Forest), l.foldl (fun f c => destroyTo n c f) (φ f) =
        φ (l.foldl (fun f c => destroyTo n c f) f) := by
      intro l
      induction l with
      | nil => exact fun _ => rfl
      | cons c rest ihl =>
        intro f
        rw [List.foldl_cons, List.foldl_cons, ih, ihl]
    rw [destroyTo, destroyTo, hcache, hfold]
    exact hdetach _ w

/-- What holds at first and survives forgetting a kept wrapper holds after a pass. -/
theorem syncCacheTo_closed {P : Forest → Prop}
    (hdrop : ∀ g v key, P g → P (g.dropCached v key)) (n : ℕ) (w : WrapperRef) (hf : P f) :
    P (syncCacheTo n w f) := by
  induction n generalizing f w with
  | zero => exact hf
  | succ n ih =>
    refine List.foldlRecOn _ _ hf fun g hg p _ => ?_
    dsimp only
    split
    · exact ih p.2 hg
    · exact hdrop g w p.1 hg

/-- Whether wrappers are made after their parents, and no wrapper is kept that has not been made. -/
structure Ordered (f : Forest) : Prop where
  parent_lt : ∀ w p, (f.wrapper w).parent = some p → p.index < w.index
  cached_lt : ∀ w, ∀ c ∈ (f.wrapper w).cache.values, c.index < f.wrappers.size

namespace Ordered

theorem modifyWrapper (h : f.Ordered) {g : Wrapper → Wrapper}
    (hparent : ∀ p, (g (f.wrapper w)).parent = some p → (f.wrapper w).parent = some p)
    (hcache : ∀ c ∈ (g (f.wrapper w)).cache.values, c.index < f.wrappers.size) :
    (f.modifyWrapper w g).Ordered where
  parent_lt v p hp := by
    rcases f.wrapper_modifyWrapper (g := g) w v with ⟨e, rfl⟩ | e
    · exact h.parent_lt v p (hparent p (e ▸ hp))
    · exact h.parent_lt v p (e ▸ hp)
  cached_lt v c hc := by
    rw [size_modifyWrapper]
    rcases f.wrapper_modifyWrapper (g := g) w v with ⟨e, rfl⟩ | e
    · exact hcache c (e ▸ hc)
    · exact h.cached_lt v c (e ▸ hc)

theorem allocWrapper (h : f.Ordered) {x : Wrapper}
    (hparent : ∀ p, x.parent = some p → p.index < f.wrappers.size) (hcache : x.cache = ∅) :
    (f.allocWrapper x).2.Ordered where
  parent_lt v p hp := by
    rcases f.wrapper_allocWrapper x v with ⟨e, hv⟩ | e
    · rw [hv]
      exact hparent p (e ▸ hp)
    · exact h.parent_lt v p (e ▸ hp)
  cached_lt v c hc := by
    rw [size_allocWrapper]
    rcases f.wrapper_allocWrapper x v with ⟨e, -⟩ | e
    · rw [e, hcache] at hc
      cases hc
    · exact Nat.lt_succ_of_lt (h.cached_lt v c (e ▸ hc))

theorem destroyTo (h : f.Ordered) (n : ℕ) (w : WrapperRef) :
    (destroyTo n w f).Ordered ∧ (destroyTo n w f).wrappers.size = f.wrappers.size := by
  refine destroyTo_closed (P := fun g => g.Ordered ∧ g.wrappers.size = f.wrappers.size)
    (fun g v hg => ⟨hg.1.modifyWrapper ?_ ?_, (size_modifyWrapper _ _ _).trans hg.2⟩) n w ⟨h, rfl⟩
  · exact fun _ hp => nomatch hp
  · exact fun _ hc => nomatch hc

theorem dropCached (h : f.Ordered) (w : WrapperRef) (key : String) :
    (f.dropCached w key).Ordered ∧ (f.dropCached w key).wrappers.size = f.wrappers.size := by
  rw [Forest.dropCached]
  split
  · exact ⟨h, rfl⟩
  · rename_i c _
    have herase := h.modifyWrapper (w := w) (g := fun x => { x with cache := x.cache.erase key })
      (fun _ hp => hp) fun c hc => h.cached_lt w c (Entries.mem_values_erase hc)
    have hdestroy := herase.destroyTo f.wrappers.size c
    rw [size_modifyWrapper] at hdestroy
    rw [destroy, size_modifyWrapper]
    exact hdestroy

theorem wrapChild (h : f.Ordered) (hw : w.index < f.wrappers.size) (key : String) (r : NodeRef) :
    (f.wrapChild w key r).2.Ordered ∧
      (f.wrapChild w key r).1.index < (f.wrapChild w key r).2.wrappers.size := by
  have halloc : (f.allocWrapper
      { Wrapper.ofNode r none with parent := some w, key := some key }).2.Ordered :=
    h.allocWrapper (by rintro _ ⟨⟩; exact hw) rfl
  refine ⟨halloc.modifyWrapper (w := w)
    (g := fun x => { x with cache := x.cache.insert key ⟨f.wrappers.size⟩ })
    (fun _ hp => hp) ?_, ?_⟩
  · intro c hc
    rcases Entries.mem_values_insert hc with rfl | hc
    · simp
    · exact halloc.cached_lt w c hc
  · simp [Forest.wrapChild, Forest.modifyWrapper, Forest.allocWrapper]

/-- Asking for the wrapper of a child leaves a forest ordered, and the wrapper has been made. -/
theorem child (h : f.Ordered) (hw : w.index < f.wrappers.size) (key : String) :
    (f.child w key).2.Ordered ∧
      ∀ c, (f.child w key).1 = some c → c.index < (f.child w key).2.wrappers.size := by
  rw [Forest.child]
  split
  · exact ⟨h, fun _ hc => nomatch hc⟩
  · rename_i r _
    have hdrop := h.dropCached w key
    have hfresh := hdrop.1.wrapChild (w := w) (by rw [hdrop.2]; exact hw) key r
    dsimp only
    split
    · rename_i c hc
      split
      · refine ⟨h, ?_⟩
        rintro _ ⟨⟩
        exact h.cached_lt w c (Entries.mem_values_of_get? hc)
      · refine ⟨hfresh.1, ?_⟩
        rintro _ ⟨⟩
        exact hfresh.2
    · refine ⟨hfresh.1, ?_⟩
      rintro _ ⟨⟩
      exact hfresh.2

end Ordered

end Forest

end LiveTree
