import LiveTree.Store

/-! Which cells a store has and what they hold. Two stores agree on a value when its cell reads the
same in both; one extends another when it has all of its cells and agrees on them. Adding a cell
extends a store. -/

namespace LiveTree

namespace Node

/-- What a node holds: its value, its default and the entries of its maps. Its type is shared and
no part of it. -/
def parts (n : Node) : List Value :=
  n.value :: n.default ::
    (n.metadata.values ++ n.constraints.values ++ n.children.values).map Value.node

theorem value_mem_parts (n : Node) : n.value ∈ n.parts := by simp [parts]

theorem default_mem_parts (n : Node) : n.default ∈ n.parts := by simp [parts]

theorem entry_mem_parts (n : Node) (role : Role) {r : NodeRef} (h : r ∈ (n.entries role).values) :
    Value.node r ∈ n.parts := by
  cases role <;> simp_all [parts, entries]

/-- Every part of a node is its value, its default or an entry of one of its maps. -/
theorem mem_parts {n : Node} {p : Value} (h : p ∈ n.parts) :
    p = n.value ∨ p = n.default ∨ ∃ role, ∃ r ∈ (n.entries role).values, p = .node r := by
  simp only [parts, List.mem_cons, List.mem_map, List.mem_append] at h
  rcases h with h | h | ⟨r, (h | h) | h, rfl⟩
  · exact .inl h
  · exact .inr (.inl h)
  · exact .inr (.inr ⟨.metadata, r, h, rfl⟩)
  · exact .inr (.inr ⟨.constraints, r, h, rfl⟩)
  · exact .inr (.inr ⟨.children, r, h, rfl⟩)

end Node

namespace Store

variable (s t : Store)

/-- Whether a store has the cell that a value refers to. A value without a cell needs none. -/
def Has : Value → Prop
  | .node r => r.index < s.nodes.size
  | .list r => r.index < s.lists.size
  | .tuple r => r.index < s.tuples.size
  | .dict r => r.index < s.dicts.size
  | _ => True

instance : DecidablePred s.Has := fun v => by cases v <;> unfold Has <;> infer_instance

/-- What a value holds one level down. -/
def parts : Value → List Value
  | .node r => (s.node r).parts
  | .list r => s.list r
  | .tuple r => s.tuple r
  | .dict r => (s.dict r).values
  | _ => []

/-- Everything that a value refers to: its parts, and the type of a node. -/
def links : Value → List Value
  | .node r => .node (s.node r).type :: (s.node r).parts
  | v => s.parts v

theorem parts_of_cell?_eq_none {v : Value} (h : v.cell? = none) : s.parts v = [] := by
  cases v <;> first | rfl | cases h

/-! A reference to no cell reads as an empty one. -/

theorem node_of_not_has {r : NodeRef} (h : ¬ s.Has (.node r)) : s.node r = default := by
  simp only [Has] at h
  simp [node, Array.getD, h]

theorem list_of_not_has {r : ListRef} (h : ¬ s.Has (.list r)) : s.list r = [] := by
  simp only [Has] at h
  simp [list, Array.getD, h]

theorem tuple_of_not_has {r : TupleRef} (h : ¬ s.Has (.tuple r)) : s.tuple r = [] := by
  simp only [Has] at h
  simp [tuple, Array.getD, h]

theorem dict_of_not_has {r : DictRef} (h : ¬ s.Has (.dict r)) : s.dict r = ∅ := by
  simp only [Has] at h
  simp [dict, Array.getD, h]

/-- Whether the cell of a value reads the same in two stores. -/
def Agree : Value → Prop
  | .node r => t.node r = s.node r
  | .list r => t.list r = s.list r
  | .tuple r => t.tuple r = s.tuple r
  | .dict r => t.dict r = s.dict r
  | _ => True

/-- Whether a store has all cells of another, reading the same. -/
def Extends : Prop := ∀ v, s.Has v → t.Has v ∧ s.Agree t v

variable {s t}

theorem parts_subset_links (v : Value) : s.parts v ⊆ s.links v := by
  cases v <;> simp [links, parts]

theorem parts_of_agree {v : Value} (h : s.Agree t v) : t.parts v = s.parts v := by
  cases v <;> simp_all [Agree, parts]

theorem links_of_agree {v : Value} (h : s.Agree t v) : t.links v = s.links v := by
  cases v <;> simp_all [Agree, links, parts]

/-- Nodes are read off the nodes of a store alone. -/
theorem node_eq_of_nodes (h : t.nodes = s.nodes) (r : NodeRef) : t.node r = s.node r :=
  congrArg (fun nodes => nodes.getD r.index default) h

theorem Agree.refl (v : Value) : s.Agree s v := by cases v <;> simp [Agree]

theorem Agree.trans {u : Store} {v : Value} (h : s.Agree t v) (h' : t.Agree u v) : s.Agree u v := by
  cases v <;> simp_all [Agree]

namespace Extends

theorem refl : s.Extends s := fun v h => ⟨h, .refl v⟩

theorem trans {u : Store} (h : s.Extends t) (h' : t.Extends u) : s.Extends u := fun v hv =>
  have ⟨ht, ha⟩ := h v hv
  have ⟨hu, ha'⟩ := h' v ht
  ⟨hu, ha.trans ha'⟩

theorem has (h : s.Extends t) {v : Value} (hv : s.Has v) : t.Has v := (h v hv).1

theorem agree (h : s.Extends t) {v : Value} (hv : s.Has v) : s.Agree t v := (h v hv).2

theorem node (h : s.Extends t) {r : NodeRef} (hr : s.Has (.node r)) : t.node r = s.node r :=
  h.agree hr

theorem parts (h : s.Extends t) {v : Value} (hv : s.Has v) : t.parts v = s.parts v :=
  parts_of_agree (h.agree hv)

end Extends

/-! ### New cells -/

theorem extends_allocNode (n : Node) : s.Extends (s.allocNode n).2 := by
  intro v hv
  cases v with
  | node r => exact ⟨by simp [Has, allocNode] at hv ⊢; omega, node_allocNode_of_lt s n hv⟩
  | _ => exact ⟨hv, by trivial⟩

theorem extends_allocList (l : List Value) : s.Extends (s.allocList l).2 := by
  intro v hv
  cases v with
  | list r =>
    refine ⟨by simp [Has, allocList] at hv ⊢; omega, ?_⟩
    simp only [Has] at hv
    simp [Agree, allocList, list, Array.getD, hv, Nat.lt_succ_of_lt hv, Array.getElem_push_lt hv]
  | _ => exact ⟨hv, by trivial⟩

theorem extends_allocTuple (l : List Value) : s.Extends (s.allocTuple l).2 := by
  intro v hv
  cases v with
  | tuple r =>
    refine ⟨by simp [Has, allocTuple] at hv ⊢; omega, ?_⟩
    simp only [Has] at hv
    simp [Agree, allocTuple, tuple, Array.getD, hv, Nat.lt_succ_of_lt hv, Array.getElem_push_lt hv]
  | _ => exact ⟨hv, by trivial⟩

theorem extends_allocDict (d : Entries Value) : s.Extends (s.allocDict d).2 := by
  intro v hv
  cases v with
  | dict r =>
    refine ⟨by simp [Has, allocDict] at hv ⊢; omega, ?_⟩
    simp only [Has] at hv
    simp [Agree, allocDict, dict, Array.getD, hv, Nat.lt_succ_of_lt hv, Array.getElem_push_lt hv]
  | _ => exact ⟨hv, by trivial⟩

@[simp] theorem list_allocList (l : List Value) : (s.allocList l).2.list (s.allocList l).1 = l := by
  simp [allocList, list, Array.getD]

@[simp] theorem tuple_allocTuple (l : List Value) :
    (s.allocTuple l).2.tuple (s.allocTuple l).1 = l := by
  simp [allocTuple, tuple, Array.getD]

@[simp] theorem dict_allocDict (d : Entries Value) :
    (s.allocDict d).2.dict (s.allocDict d).1 = d := by
  simp [allocDict, dict, Array.getD]

/-! ### Cells that came between -/

variable (s t) in
/-- Whether a value refers to a cell of the later of two stores that the earlier did not have. -/
def Between (v : Value) : Prop := ¬ s.Has v ∧ t.Has v

theorem between_allocNode {n : Node} {v : Value} (h : s.Between (s.allocNode n).2 v) :
    v = .node (s.allocNode n).1 := by
  obtain ⟨hn, h⟩ := h
  cases v with
  | node r =>
    obtain ⟨i⟩ := r
    simp only [Has, allocNode, Array.size_push] at hn h
    simp only [allocNode, Value.node.injEq, NodeRef.mk.injEq]
    omega
  | _ => exact (hn h).elim

theorem between_allocList {l : List Value} {v : Value} (h : s.Between (s.allocList l).2 v) :
    v = .list (s.allocList l).1 := by
  obtain ⟨hn, h⟩ := h
  cases v with
  | list r =>
    obtain ⟨i⟩ := r
    simp only [Has, allocList, Array.size_push] at hn h
    simp only [allocList, Value.list.injEq, ListRef.mk.injEq]
    omega
  | _ => exact (hn h).elim

theorem between_allocTuple {l : List Value} {v : Value} (h : s.Between (s.allocTuple l).2 v) :
    v = .tuple (s.allocTuple l).1 := by
  obtain ⟨hn, h⟩ := h
  cases v with
  | tuple r =>
    obtain ⟨i⟩ := r
    simp only [Has, allocTuple, Array.size_push] at hn h
    simp only [allocTuple, Value.tuple.injEq, TupleRef.mk.injEq]
    omega
  | _ => exact (hn h).elim

theorem between_allocDict {d : Entries Value} {v : Value} (h : s.Between (s.allocDict d).2 v) :
    v = .dict (s.allocDict d).1 := by
  obtain ⟨hn, h⟩ := h
  cases v with
  | dict r =>
    obtain ⟨i⟩ := r
    simp only [Has, allocDict, Array.size_push] at hn h
    simp only [allocDict, Value.dict.injEq, DictRef.mk.injEq]
    omega
  | _ => exact (hn h).elim

end Store

end LiveTree
