import LiveTree.Proofs.Store.WellFormed
import LiveTree.Value.Arithmetic

/-! Cells set aside. Some cells of a store are sealed in a later store when they are as they were
and nothing outside of them holds one of them. New cells and changes of cells outside leave them
sealed, as long as they hold none of them either. -/

namespace LiveTree

/-- Whether two nodes have the same id, type and kind, which no node ever changes. -/
structure Node.Akin (n m : Node) : Prop where
  id : m.id = n.id
  type : m.type = n.type
  kind : m.kind = n.kind

namespace Node.Akin

variable {n m k : Node}

theorem refl (n : Node) : n.Akin n := ⟨rfl, rfl, rfl⟩

theorem symm (h : n.Akin m) : m.Akin n := ⟨h.id.symm, h.type.symm, h.kind.symm⟩

theorem trans (h : n.Akin m) (h' : m.Akin k) : n.Akin k :=
  ⟨h'.id.trans h.id, h'.type.trans h.type, h'.kind.trans h.kind⟩

end Node.Akin

namespace Store

/-- Whether a later store has all cells of an earlier one with what never changes about them: the
elements of a tuple, and the id, type and kind of a node. -/
structure Outlives (s t : Store) : Prop where
  has : ∀ v, s.Has v → t.Has v
  tuple : ∀ r, s.Has (.tuple r) → t.tuple r = s.tuple r
  akin : ∀ r, s.Has (.node r) → (s.node r).Akin (t.node r)

/-- Whether a later store holds the cells that came between two stores as they were. -/
def Retains (s s₁ t : Store) : Prop := ∀ v, s.Between s₁ v → s₁.Agree t v

/-- Whether some cells of a store are as they were in a later one, and out of reach. Types are
shared and do not count. -/
structure Sealed (P : Value → Prop) (s₁ t : Store) : Prop where
  has : ∀ v, P v → v.cell?.isSome ∧ s₁.Has v
  outlives : s₁.Outlives t
  retains : ∀ v, P v → s₁.Agree t v
  apart : ∀ v, ¬ P v → ∀ p ∈ t.parts v, ¬ P p

variable {P : Value → Prop} {s s₁ s₂ t u : Store} {v : Value}

theorem Extends.outlives (h : s.Extends t) : s.Outlives t where
  has _ := h.has
  tuple _ hr := h.agree hr
  akin r hr := by rw [h.node hr]; exact .refl _

theorem Outlives.trans (h : s.Outlives t) (h' : t.Outlives u) : s.Outlives u where
  has v hv := h'.has v (h.has v hv)
  tuple r hr := (h'.tuple r (h.has _ hr)).trans (h.tuple r hr)
  akin r hr := (h.akin r hr).trans (h'.akin r (h.has _ hr))

namespace Outlives

theorem nodes_le (h : s.Outlives t) : s.nodes.size ≤ t.nodes.size :=
  Nat.le_of_not_lt fun hlt => Nat.lt_irrefl _ (h.has (.node ⟨t.nodes.size⟩) hlt)

theorem lists_le (h : s.Outlives t) : s.lists.size ≤ t.lists.size :=
  Nat.le_of_not_lt fun hlt => Nat.lt_irrefl _ (h.has (.list ⟨t.lists.size⟩) hlt)

theorem tuples_le (h : s.Outlives t) : s.tuples.size ≤ t.tuples.size :=
  Nat.le_of_not_lt fun hlt => Nat.lt_irrefl _ (h.has (.tuple ⟨t.tuples.size⟩) hlt)

theorem dicts_le (h : s.Outlives t) : s.dicts.size ≤ t.dicts.size :=
  Nat.le_of_not_lt fun hlt => Nat.lt_irrefl _ (h.has (.dict ⟨t.dicts.size⟩) hlt)

/-- Later stores are no smaller. -/
theorem size_le (h : s.Outlives t) : s.size ≤ t.size := by
  have hnodes := h.nodes_le
  have hlists := h.lists_le
  have htuples := h.tuples_le
  have hdicts := h.dicts_le
  simp only [size]
  omega

end Outlives

/-- A reference to no cell reads the same in all stores. -/
theorem parts_of_not_has (hs : ¬ s.Has v) (ht : ¬ t.Has v) : t.parts v = s.parts v := by
  cases v with
  | node r => simp only [parts, node_of_not_has s hs, node_of_not_has t ht]
  | list r => simp only [parts, list_of_not_has s hs, list_of_not_has t ht]
  | tuple r => simp only [parts, tuple_of_not_has s hs, tuple_of_not_has t ht]
  | dict r => simp only [parts, dict_of_not_has s hs, dict_of_not_has t ht]
  | _ => rfl

/-- An empty cell holds no other. -/
theorem eq_none_of_mem_parts_of_not_has (hs : ¬ s.Has v) {p : Value} (hp : p ∈ s.parts v) :
    p = .none := by
  cases v with
  | node r =>
    have hdefault : s.parts (.node r) = [.none, .none] := by
      rw [parts, node_of_not_has s hs]; rfl
    simpa [hdefault] using hp
  | list r => simp [parts, list_of_not_has s hs] at hp
  | tuple r => simp [parts, tuple_of_not_has s hs] at hp
  | dict r =>
    simp only [parts, dict_of_not_has s hs] at hp
    cases hp
  | _ => cases hp

theorem not_between_of_cell?_eq_none (h : v.cell? = none) : ¬ s.Between s₁ v := by
  cases v with
  | node => cases h
  | list => cases h
  | tuple => cases h
  | dict => cases h
  | _ => exact fun hv => hv.1 trivial

theorem not_between_of_has (h : s.Has v) : ¬ s.Between s₁ v := fun hv => hv.1 h

/-! ### Changed cells -/

theorem has_setNode (r : NodeRef) (n : Node) : (s.setNode r n).Has v ↔ s.Has v := by
  cases v <;> simp [Has, Store.setNode]

theorem has_setList (r : ListRef) (l : List Value) : (s.setList r l).Has v ↔ s.Has v := by
  cases v <;> simp [Has, Store.setList]

theorem has_setDict (r : DictRef) (d : Entries Value) : (s.setDict r d).Has v ↔ s.Has v := by
  cases v <;> simp [Has, Store.setDict]

theorem agree_setNode {r : NodeRef} {n : Node} (h : v ≠ .node r) : s.Agree (s.setNode r n) v := by
  cases v with
  | node q => exact node_setNode_of_ne s n fun e => h (congrArg Value.node e)
  | _ => trivial

theorem agree_setNode_of_not_has {r : NodeRef} {n : Node} (h : ¬ s.Has (.node r)) :
    s.Agree (s.setNode r n) (.node r) := by
  have h' : ¬ (s.setNode r n).Has (.node r) := fun hr => h ((has_setNode r n).mp hr)
  rw [Agree, node_of_not_has s h, node_of_not_has _ h']

theorem akin_setNode {r : NodeRef} {n : Node} (h : (s.node r).Akin n) (q : NodeRef) :
    (s.node q).Akin ((s.setNode r n).node q) := by
  by_cases e : q = r
  · subst e
    by_cases hq : s.Has (.node q)
    · rwa [node_setNode_self s q n hq]
    · rw [show (s.setNode q n).node q = s.node q from agree_setNode_of_not_has hq]
      exact .refl _
  · rw [node_setNode_of_ne s n e]
    exact .refl _

theorem outlives_setNode {r : NodeRef} {n : Node} (h : (s.node r).Akin n) :
    s.Outlives (s.setNode r n) where
  has _ hv := (has_setNode _ _).mpr hv
  tuple _ _ := rfl
  akin q _ := akin_setNode h q

theorem list_setList (s : Store) (r : ListRef) (l : List Value) :
    (s.setList r l).list r = l ∨ (s.setList r l).list r = s.list r := by
  by_cases h : r.index < s.lists.size
  · exact .inl (by simp [Store.setList, list, Array.getD, h])
  · exact .inr (by simp [Store.setList, list, Array.getD, h])

theorem agree_setList {r : ListRef} {l : List Value} (h : v ≠ .list r) :
    s.Agree (s.setList r l) v := by
  cases v with
  | list q =>
    have hne : r.index ≠ q.index := fun e => h (by cases q; cases r; simp_all)
    by_cases hq : q.index < s.lists.size <;> simp [Agree, Store.setList, list, Array.getD, hq, hne]
  | _ => trivial

theorem outlives_setList (r : ListRef) (l : List Value) : s.Outlives (s.setList r l) where
  has _ hv := (has_setList _ _).mpr hv
  tuple _ _ := rfl
  akin _ _ := .refl _

theorem dict_setDict (s : Store) (r : DictRef) (d : Entries Value) :
    (s.setDict r d).dict r = d ∨ (s.setDict r d).dict r = s.dict r := by
  by_cases h : r.index < s.dicts.size
  · exact .inl (by simp [Store.setDict, dict, Array.getD, h])
  · exact .inr (by simp [Store.setDict, dict, Array.getD, h])

theorem agree_setDict {r : DictRef} {d : Entries Value} (h : v ≠ .dict r) :
    s.Agree (s.setDict r d) v := by
  cases v with
  | dict q =>
    have hne : r.index ≠ q.index := fun e => h (by cases q; cases r; simp_all)
    by_cases hq : q.index < s.dicts.size <;> simp [Agree, Store.setDict, dict, Array.getD, hq, hne]
  | _ => trivial

theorem outlives_setDict (r : DictRef) (d : Entries Value) : s.Outlives (s.setDict r d) where
  has _ hv := (has_setDict _ _).mpr hv
  tuple _ _ := rfl
  akin _ _ := .refl _

namespace Sealed

/-- What has no cell is not sealed. -/
theorem not_of_cell?_eq_none (h : Sealed P s₁ t) (hv : v.cell? = none) : ¬ P v := fun hP => by
  have := (h.has v hP).1
  rw [hv] at this
  cases this

/-- The cells that a store adds to a well-formed one are sealed at first. -/
theorem of_wellFormed (hs : s.WellFormed) (he : s.Extends s₁) : Sealed (s.Between s₁) s₁ s₁ where
  has v hv := ⟨by cases v <;> first | rfl | exact (hv.1 trivial).elim, hv.2⟩
  outlives := Extends.refl.outlives
  retains v _ := .refl v
  apart v hv p hp := by
    by_cases hsv : s.Has v
    · rw [he.parts hsv] at hp
      exact not_between_of_has (hs.has_parts hsv p hp)
    · have hnot : ¬ s₁.Has v := fun h => hv ⟨hsv, h⟩
      rw [eq_none_of_mem_parts_of_not_has hnot hp]
      exact not_between_of_cell?_eq_none rfl

/-- New cells leave others sealed when they hold none of them. -/
theorem of_extends (h : Sealed P s₁ t) (he : t.Extends u)
    (hnew : ∀ v, t.Between u v → ∀ p ∈ u.parts v, ¬ P p) : Sealed P s₁ u where
  has := h.has
  outlives := h.outlives.trans he.outlives
  retains v hv := (h.retains v hv).trans (he.agree (h.outlives.has v (h.has v hv).2))
  apart v hv p hp := by
    by_cases ht : t.Has v
    · rw [parts_of_agree (he.agree ht)] at hp
      exact h.apart v hv p hp
    · by_cases hu : u.Has v
      · exact hnew v ⟨ht, hu⟩ p hp
      · rw [parts_of_not_has ht hu] at hp
        exact h.apart v hv p hp

theorem newList (h : Sealed P s₁ t) {l : List Value} (hl : ∀ p ∈ l, ¬ P p) :
    Sealed P s₁ (t.newList l).2 ∧ ¬ P (t.newList l).1 := by
  refine ⟨h.of_extends (extends_allocList l) fun v hv p hp => ?_, fun hb => ?_⟩
  · rw [between_allocList hv] at hp
    exact hl p (by simpa [links, parts, Store.newList] using hp)
  · have := h.outlives.has _ (h.has _ hb).2
    simp [Store.newList, allocList, Has] at this

theorem newTuple (h : Sealed P s₁ t) {l : List Value} (hl : ∀ p ∈ l, ¬ P p) :
    Sealed P s₁ (t.newTuple l).2 ∧ ¬ P (t.newTuple l).1 := by
  refine ⟨h.of_extends (extends_allocTuple l) fun v hv p hp => ?_, fun hb => ?_⟩
  · rw [between_allocTuple hv] at hp
    exact hl p (by simpa [links, parts, Store.newTuple] using hp)
  · have := h.outlives.has _ (h.has _ hb).2
    simp [Store.newTuple, allocTuple, Has] at this

theorem newDict (h : Sealed P s₁ t) {d : Entries Value} (hd : ∀ p ∈ d.values, ¬ P p) :
    Sealed P s₁ (t.newDict d).2 ∧ ¬ P (t.newDict d).1 := by
  refine ⟨h.of_extends (extends_allocDict d) fun v hv p hp => ?_, fun hb => ?_⟩
  · rw [between_allocDict hv] at hp
    exact hd p (by simpa [links, parts, Store.newDict] using hp)
  · have := h.outlives.has _ (h.has _ hb).2
    simp [Store.newDict, allocDict, Has] at this

theorem allocNode (h : Sealed P s₁ t) {n : Node} (hn : ∀ p ∈ n.parts, ¬ P p) :
    Sealed P s₁ (t.allocNode n).2 ∧ ¬ P (.node (t.allocNode n).1) := by
  refine ⟨h.of_extends (extends_allocNode n) fun v hv p hp => ?_, fun hb => ?_⟩
  · rw [between_allocNode hv] at hp
    rw [parts, node_allocNode_self] at hp
    exact hn p hp
  · have := h.outlives.has _ (h.has _ hb).2
    simp [Store.allocNode, Has] at this

/-- Writing a node outside leaves cells sealed when it holds none of them. A node that was
there when they were sealed has to keep its id, type and kind. -/
theorem setNode (h : Sealed P s₁ t) {r : NodeRef} {n : Node} (hr : ¬ P (.node r))
    (hakin : s₁.Has (.node r) → (s₁.node r).Akin n)
    (hn : ∀ p ∈ n.parts, ¬ P p) : Sealed P s₁ (t.setNode r n) where
  has := h.has
  outlives :=
    { has := fun v hv => (has_setNode r n).mpr (h.outlives.has v hv)
      tuple := h.outlives.tuple
      akin := fun q hq => by
        by_cases e : q = r
        · subst e
          rw [node_setNode_self t q n (h.outlives.has _ hq)]
          exact hakin hq
        · rw [node_setNode_of_ne t n e]
          exact h.outlives.akin q hq }
  retains v hv := (h.retains v hv).trans (agree_setNode fun e => hr (e ▸ hv))
  apart v hv p hp := by
    by_cases hvr : v = .node r ∧ t.Has (.node r)
    · obtain ⟨rfl, hhas⟩ := hvr
      rw [parts, node_setNode_self t r n hhas] at hp
      exact hn p hp
    · have hsame : t.Agree (t.setNode r n) v := by
        by_cases e : v = .node r
        · subst e
          exact agree_setNode_of_not_has fun hhas => hvr ⟨rfl, hhas⟩
        · exact agree_setNode e
      rw [parts_of_agree hsame] at hp
      exact h.apart v hv p hp

theorem setList (h : Sealed P s₁ t) {r : ListRef} {l : List Value}
    (hr : ¬ P (.list r)) (hl : ∀ p ∈ l, ¬ P p) :
    Sealed P s₁ (t.setList r l) where
  has := h.has
  outlives := h.outlives.trans (outlives_setList r l)
  retains v hv := (h.retains v hv).trans (agree_setList fun e => hr (e ▸ hv))
  apart v hv p hp := by
    by_cases e : v = .list r
    · subst e
      rcases list_setList t r l with he | he <;> simp only [parts, he] at hp
      · exact hl p hp
      · exact h.apart _ hv p hp
    · rw [parts_of_agree (agree_setList e)] at hp
      exact h.apart v hv p hp

theorem setDict (h : Sealed P s₁ t) {r : DictRef} {d : Entries Value}
    (hr : ¬ P (.dict r)) (hd : ∀ p ∈ d.values, ¬ P p) :
    Sealed P s₁ (t.setDict r d) where
  has := h.has
  outlives := h.outlives.trans (outlives_setDict r d)
  retains v hv := (h.retains v hv).trans (agree_setDict fun e => hr (e ▸ hv))
  apart v hv p hp := by
    by_cases e : v = .dict r
    · subst e
      rcases dict_setDict t r d with he | he <;> simp only [parts, he] at hp
      · exact hd p hp
      · exact h.apart _ hv p hp
    · rw [parts_of_agree (agree_setDict e)] at hp
      exact h.apart v hv p hp

end Sealed

end Store

end LiveTree
