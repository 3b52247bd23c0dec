import LiveTree.Eval.Arguments
import LiveTree.Proofs.Store.Cells

/-! Later stores. Evaluation adds cells to a store and remembers argument orders that have not been
remembered before; it changes nothing else. A store that comes from another in this way is later
than it. -/

namespace LiveTree.Store

/-- Whether a store has all cells of another, reading the same, and remembers the argument orders
of its nodes that the other remembers, and besides only such as its nodes have. -/
structure Later (s t : Store) : Prop where
  cells : s.Extends t
  places : s.argOrders.size ≤ t.argOrders.size
  order : ∀ r, s.Has (.node r) → t.argOrder r = s.argOrder r ∨ s.argOrder r = none ∧
    ∃ keys, t.argOrder r = some keys ∧ argumentOrder (s.node r).children.keys = .ok keys

variable {s t u : Store}

namespace Later

theorem refl (s : Store) : s.Later s := ⟨.refl, Nat.le_refl _, fun _ _ => .inl rfl⟩

theorem node (h : s.Later t) {r : NodeRef} (hr : s.Has (.node r)) : t.node r = s.node r :=
  h.cells.node hr

theorem has (h : s.Later t) {v : Value} (hv : s.Has v) : t.Has v := h.cells.has hv

theorem trans (h : s.Later t) (h' : t.Later u) : s.Later u where
  cells := h.cells.trans h'.cells
  places := Nat.le_trans h.places h'.places
  order r hr := by
    rcases h'.order r (h.has hr) with e | ⟨hnone, keys, hkeys, hfresh⟩
    · rw [e]
      exact h.order r hr
    · rw [h.node hr] at hfresh
      rcases h.order r hr with e | ⟨-, keys', hkeys', -⟩
      · exact .inr ⟨e ▸ hnone, keys, hkeys, hfresh⟩
      · rw [hkeys'] at hnone
        cases hnone

/-- New lists, tuples and dictionaries leave the argument orders as they are. -/
theorem of_cells (h : s.Extends t) (ho : t.argOrders = s.argOrders) : s.Later t where
  cells := h
  places := Nat.le_of_eq (congrArg Array.size ho.symm)
  order r _ := .inl (by rw [argOrder, ho, argOrder])

end Later

theorem later_allocList (l : List Value) : s.Later (s.allocList l).2 :=
  .of_cells (extends_allocList l) rfl

theorem later_allocTuple (l : List Value) : s.Later (s.allocTuple l).2 :=
  .of_cells (extends_allocTuple l) rfl

theorem later_allocDict (d : Entries Value) : s.Later (s.allocDict d).2 :=
  .of_cells (extends_allocDict d) rfl

/-- No order is remembered for a new node. -/
theorem argOrder_allocNode (n : Node) (r : NodeRef) :
    (s.allocNode n).2.argOrder r = s.argOrder r := by
  simp only [allocNode, argOrder, Array.getD, Array.size_push]
  by_cases h : r.index < s.argOrders.size
  · simp [h, Nat.lt_succ_of_lt h, Array.getElem_push_lt h]
  · by_cases e : r.index = s.argOrders.size
    · simp [e]
    · simp [h, show ¬ r.index < s.argOrders.size + 1 by omega]

theorem later_allocNode (n : Node) : s.Later (s.allocNode n).2 where
  cells := extends_allocNode n
  places := by simp [allocNode]
  order r _ := .inl (argOrder_allocNode n r)

/-- What is remembered of a node after its argument order has been noted. -/
theorem argOrder_setArgOrder (r : NodeRef) (keys : List String) (q : NodeRef) :
    (s.setArgOrder r keys).argOrder q = s.argOrder q ∨
      q = r ∧ (s.setArgOrder r keys).argOrder q = some keys := by
  obtain ⟨i⟩ := q
  obtain ⟨j⟩ := r
  by_cases h : i < s.argOrders.size
  · by_cases e : j = i
    · subst e
      exact .inr ⟨rfl, by simp [setArgOrder, argOrder, Array.getD, h]⟩
    · exact .inl (by simp [setArgOrder, argOrder, Array.getD, h, e])
  · exact .inl (by simp [setArgOrder, argOrder, Array.getD, h])

/-- An order that has been remembered is there as long as there is room for it. -/
theorem argOrder_setArgOrder_self {r : NodeRef} (h : r.index < s.argOrders.size)
    (keys : List String) : (s.setArgOrder r keys).argOrder r = some keys := by
  simp [setArgOrder, argOrder, Array.getD, h]

theorem argOrder_setArgOrder_ne {q r : NodeRef} (h : q ≠ r) (keys : List String) :
    (s.setArgOrder r keys).argOrder q = s.argOrder q :=
  (s.argOrder_setArgOrder r keys q).resolve_right fun hq => h hq.1

/-- Remembering what is remembered changes nothing. -/
theorem setArgOrder_kept {r : NodeRef} {keys : List String} (h : s.argOrder r = some keys) :
    s.setArgOrder r keys = s := by
  have hset : s.argOrders.setIfInBounds r.index (some keys) = s.argOrders := by
    refine Array.ext (by simp) fun i hi hi' => ?_
    by_cases e : r.index = i
    · subst e
      have hkept : s.argOrders[r.index] = some keys := by simpa [argOrder, Array.getD, hi'] using h
      rw [Array.getElem_setIfInBounds_self, hkept]
    · rw [Array.getElem_setIfInBounds_ne hi' e]
  rw [setArgOrder, hset]

theorem extends_setArgOrder (r : NodeRef) (keys : List String) :
    s.Extends (s.setArgOrder r keys) := fun v hv => ⟨hv, by cases v <;> trivial⟩

theorem later_setArgOrder {r : NodeRef} {keys : List String} (hnone : s.argOrder r = none)
    (hkeys : argumentOrder (s.node r).children.keys = .ok keys) :
    s.Later (s.setArgOrder r keys) where
  cells := extends_setArgOrder r keys
  places := by simp [setArgOrder]
  order q _ := by
    rcases s.argOrder_setArgOrder r keys q with e | ⟨rfl, e⟩
    · exact .inl e
    · exact .inr ⟨hnone, keys, e, hkeys⟩

end LiveTree.Store

namespace LiveTree

variable {s : Store} {r : NodeRef}

/-- What looking up the arguments of an operator expression does: it goes by the order that is
remembered, or it works the order out and remembers it, or that fails. -/
theorem orderedArguments_cases (s : Store) (r : NodeRef) :
    (∃ keys, s.argOrder r = some keys ∧
      orderedArguments r s = .done ((s.node r).arguments keys) s) ∨
    (∃ keys, s.argOrder r = none ∧ argumentOrder (s.node r).children.keys = .ok keys ∧
      orderedArguments r s = .done ((s.node r).arguments keys) (s.setArgOrder r keys)) ∨
    ∃ e, s.argOrder r = none ∧ argumentOrder (s.node r).children.keys = .error e ∧
      orderedArguments r s = .failed e (.ended s) := by
  rw [orderedArguments, EvalM.read_bind, EvalM.read_bind]
  cases s.argOrder r with
  | some keys => exact .inl ⟨keys, rfl, rfl⟩
  | none =>
    refine .inr ?_
    cases argumentOrder (s.node r).children.keys with
    | ok keys => exact .inl ⟨keys, rfl, rfl, rfl⟩
    | error e => exact .inr ⟨e, rfl, rfl, rfl⟩

/-- The first time, the arguments are handed over in the order of their keys, which is remembered. -/
theorem orderedArguments_of_order {keys : List String} (hnone : s.argOrder r = none)
    (h : argumentOrder (s.node r).children.keys = .ok keys) :
    orderedArguments r s = .done ((s.node r).arguments keys) (s.setArgOrder r keys) := by
  rw [orderedArguments, EvalM.read_bind, EvalM.read_bind, hnone, h]
  rfl

/-- When the keys cannot be put in order, nothing is remembered. -/
theorem orderedArguments_of_fault {e : Fault} (hnone : s.argOrder r = none)
    (h : argumentOrder (s.node r).children.keys = .error e) :
    orderedArguments r s = .failed e (.ended s) := by
  rw [orderedArguments, EvalM.read_bind, EvalM.read_bind, hnone, h]
  rfl

end LiveTree
