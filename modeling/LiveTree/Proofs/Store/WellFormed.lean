import LiveTree.Proofs.Descent
import LiveTree.Proofs.Store.Cells

/-! Well-formed stores: every reference is to a cell that is there, the kind of each node is that of
its type's id, and the built-in types stand in their places. The initial store is well-formed, and
so is a store with one more cell that refers to what is there. In a well-formed store a value
without cycles is no deeper than there are cells. -/

namespace LiveTree.Store

/-- A store whose cells refer to its cells only, with kinds as the types have it. -/
structure WellFormed (s : Store) : Prop where
  has_links : ∀ v, s.Has v → ∀ p ∈ s.links v, s.Has p
  kind_eq : ∀ r, s.Has (.node r) → (s.node r).kind = .ofTypeId (s.typeOf r).id
  builtin : ∀ p ∈ Builtin.all, s.Has (.node p.2) ∧ (s.node p.2).id = p.1

variable {s t : Store}

namespace WellFormed

theorem has_parts (h : s.WellFormed) {v : Value} (hv : s.Has v) : ∀ p ∈ s.parts v, s.Has p :=
  fun p hp => h.has_links v hv p (parts_subset_links v hp)

theorem has_type (h : s.WellFormed) {r : NodeRef} (hr : s.Has (.node r)) :
    s.Has (.node (s.node r).type) := h.has_links _ hr _ (by simp [links])

theorem has_reached (h : s.WellFormed) {v u : Value} (hv : s.Has v) (hu : Reaches s.parts v u) :
    s.Has u := hu.closed hv fun _ _ hx => h.has_parts hx

/-- Nothing more is reached in a store that extends a well-formed one. -/
theorem reaches_of_extends (h : s.WellFormed) (he : s.Extends t) {v u : Value} (hv : s.Has v)
    (hu : Reaches t.parts v u) : Reaches s.parts v u :=
  hu.closed (.refl v) fun x _ hx y hy => by
    rw [he.parts (h.has_reached hv hx)] at hy
    exact hx.below hy

theorem endsWithin_of_extends (h : s.WellFormed) (he : s.Extends t) {v : Value} (hv : s.Has v)
    {n : ℕ} (hn : EndsWithin s.parts n v) : EndsWithin t.parts n v :=
  hn.congr fun _ hu => he.parts (h.has_reached hv hu)

/-- New cells that refer to what is there, and new nodes of the right kind, keep a store
well-formed. -/
theorem of_extends (h : s.WellFormed) (he : s.Extends t)
    (hnew : ∀ v, s.Between t v → ∀ p ∈ t.links v, t.Has p)
    (hkind : ∀ r, s.Between t (.node r) → (t.node r).kind = .ofTypeId (t.typeOf r).id) :
    t.WellFormed where
  has_links v hv p hp := by
    by_cases hs : s.Has v
    · rw [links_of_agree (he.agree hs)] at hp
      exact he.has (h.has_links v hs p hp)
    · exact hnew v ⟨hs, hv⟩ p hp
  kind_eq r hr := by
    by_cases hs : s.Has (.node r)
    · rw [typeOf, he.node hs, he.node (h.has_type hs)]
      exact h.kind_eq r hs
    · exact hkind r ⟨hs, hr⟩
  builtin p hp := by
    obtain ⟨hs, hid⟩ := h.builtin p hp
    exact ⟨he.has hs, by rw [he.node hs, hid]⟩

theorem allocList (h : s.WellFormed) {l : List Value} (hl : ∀ v ∈ l, s.Has v) :
    (s.allocList l).2.WellFormed := by
  refine h.of_extends (extends_allocList l) (fun v hv p hp => ?_) fun r hr => ?_
  · rw [between_allocList hv] at hp
    simp only [links, parts, list_allocList] at hp
    exact (extends_allocList l).has (hl p hp)
  · cases between_allocList hr

theorem allocTuple (h : s.WellFormed) {l : List Value} (hl : ∀ v ∈ l, s.Has v) :
    (s.allocTuple l).2.WellFormed := by
  refine h.of_extends (extends_allocTuple l) (fun v hv p hp => ?_) fun r hr => ?_
  · rw [between_allocTuple hv] at hp
    simp only [links, parts, tuple_allocTuple] at hp
    exact (extends_allocTuple l).has (hl p hp)
  · cases between_allocTuple hr

theorem allocDict (h : s.WellFormed) {d : Entries Value} (hd : ∀ v ∈ d.values, s.Has v) :
    (s.allocDict d).2.WellFormed := by
  refine h.of_extends (extends_allocDict d) (fun v hv p hp => ?_) fun r hr => ?_
  · rw [between_allocDict hv] at hp
    simp only [links, parts, dict_allocDict] at hp
    exact (extends_allocDict d).has (hd p hp)
  · cases between_allocDict hr

theorem allocNode (h : s.WellFormed) {n : Node} (htype : s.Has (.node n.type))
    (hkind : n.kind = .ofTypeId (s.node n.type).id) (hn : ∀ p ∈ n.parts, s.Has p) :
    (s.allocNode n).2.WellFormed := by
  refine h.of_extends (extends_allocNode n) (fun v hv p hp => ?_) fun r hr => ?_
  · rw [between_allocNode hv] at hp
    simp only [links, node_allocNode_self, List.mem_cons] at hp
    rcases hp with rfl | hp
    · exact (extends_allocNode n).has htype
    · exact (extends_allocNode n).has (hn p hp)
  · cases between_allocNode hr
    rw [typeOf, node_allocNode_self, (extends_allocNode n).node htype, hkind]

end WellFormed

/-- The built-in types are well-formed. -/
theorem initial_wellFormed : initial.WellFormed where
  has_links v hv := by
    have hall : ∀ i < 8, ∀ p ∈ initial.links (.node ⟨i⟩), initial.Has p := by decide
    cases v with
    | node r => exact hall r.index hv
    | list r => simp [Has, initial] at hv
    | tuple r => simp [Has, initial] at hv
    | dict r => simp [Has, initial] at hv
    | _ => simp [links, parts]
  kind_eq r hr := by
    have hall : ∀ i < 8, (initial.node ⟨i⟩).kind = .ofTypeId (initial.typeOf ⟨i⟩).id := by decide
    exact hall r.index hr
  builtin := by decide

/-! ### Depth -/

/-- The number of a cell among all cells of a store, sort after sort. -/
def number (s : Store) : Value → ℕ
  | .node r => r.index
  | .list r => s.nodes.size + r.index
  | .tuple r => s.nodes.size + s.lists.size + r.index
  | .dict r => s.nodes.size + s.lists.size + s.tuples.size + r.index
  | _ => 0

theorem number_lt {v : Value} (hv : s.Has v) (hp : s.parts v ≠ []) : s.number v < s.size := by
  cases v <;> simp only [Has, number, size, parts, ne_eq, not_true] at * <;> omega

theorem number_injective {v u : Value} (hv : s.Has v) (hu : s.Has u) (hpv : s.parts v ≠ [])
    (hpu : s.parts u ≠ []) (h : s.number v = s.number u) : v = u := by
  cases v <;> cases u <;> simp only [Has, number, parts, ne_eq, not_true] at * <;>
    first
      | omega
      | (rename_i a b; obtain ⟨i⟩ := a; obtain ⟨j⟩ := b; simp at h ⊢; omega)

/-- A value without cycles is no deeper than there are cells. -/
theorem WellFormed.endsWithin (h : s.WellFormed) {v : Value} (hv : s.Has v)
    (ha : LiveTree.Acyclic s.parts v) : EndsWithin s.parts s.depthBound v :=
  ha.endsWithin (fun _ hu => number_lt (h.has_reached hv hu))
    fun _ _ hu hw => number_injective (h.has_reached hv hu) (h.has_reached hv hw)

end LiveTree.Store
