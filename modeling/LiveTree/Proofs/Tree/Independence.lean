import LiveTree.Proofs.Tree.Operation

/-! A node and its copy. What both hold is scalars and what lies at or below a tuple. When tuples
hold scalars and tuples only, a program that works on one of the two, through any wrappers that do
not stand elsewhere, leaves the serialized form of the other as it was. -/

namespace LiveTree

open Store

variable {σ ν : Type} {s t : Store} {a b r : NodeRef}

/-! ### Working below a node -/

/-- Whether a value is a cell of a store that is not reached from a node. -/
def Store.Elsewhere (t : Store) (a : NodeRef) (v : Value) : Prop :=
  v.cell?.isSome ∧ t.Has v ∧ ¬ Reaches t.parts (.node a) v

/-- What is reached from a node holds nothing from elsewhere. -/
theorem sealed_elsewhere (t : Store) (a : NodeRef) : Sealed (t.Elsewhere a) t t where
  has _ hv := ⟨hv.1, hv.2.1⟩
  outlives := Extends.refl.outlives
  retains v _ := .refl v
  apart v hv p hp helse := by
    by_cases hhas : t.Has v
    · by_cases hcell : v.cell? = none
      · rw [parts_of_cell?_eq_none t hcell] at hp
        cases hp
      · exact hv ⟨Option.isSome_iff_ne_none.mpr hcell, hhas, fun h => helse.2.2 (h.below hp)⟩
    · rw [eq_none_of_mem_parts_of_not_has hhas hp] at helse
      cases helse.1

/-- Whether a program and its listeners, as things stand at first, go through no wrapper that stands
elsewhere than below a node, and are handed no cell from elsewhere. What is made on the way may be
used like what is below the node, and so may the wrappers of it. -/
structure Operation.Confined (a : NodeRef) (x : World σ)
    (react : World σ → Nat → List String → List (Operation σ)) (program : List (Operation σ)) :
    Prop where
  listeners : ∀ y listener paths,
    Clear (x.forest.store.Elsewhere a) x.forest.store
      (x.forest.StandsClear (x.forest.store.Elsewhere a)) y.forest →
    Operation.AvoidsAll x.forest.store (x.forest.store.Elsewhere a)
      (y.forest.StandsClear (x.forest.store.Elsewhere a)) (react y listener paths)
  program : Operation.AvoidsAll x.forest.store (x.forest.store.Elsewhere a)
    (x.forest.StandsClear (x.forest.store.Elsewhere a)) program

section Frame

variable {x y : World σ} {react : World σ → Nat → List String → List (Operation σ)} {limit : ℕ}
  {program : List (Operation σ)}

/-- A program that is confined below a node changes no cell elsewhere, also when it fails. -/
theorem Operation.Confined.retains (h : Confined a x react program)
    (hy : performAll (reacting react limit) program x = .ok () y ∨
      ∃ e, performAll (reacting react limit) program x = .error e y) :
    Sealed (x.forest.store.Elsewhere a) x.forest.store y.forest.store := by
  have hkeeps := performAll_clear (reacting_clear h.listeners limit) program h.program
  have hx : Clear (x.forest.store.Elsewhere a) x.forest.store
      (x.forest.StandsClear (x.forest.store.Elsewhere a)) x.forest :=
    ⟨sealed_elsewhere _ a, fun _ hw => hw⟩
  rcases hy with hy | ⟨e, hy⟩
  · exact (hkeeps.ok hx hy).1.store
  · exact (hkeeps.error hx hy).store

/-- Whether nothing but scalars and tuples is reached from both of two nodes. -/
def Store.Separate (t : Store) (a b : NodeRef) : Prop :=
  ∀ u, Reaches t.parts (.node a) u → Reaches t.parts (.node b) u →
    u.cell? = none ∨ ∃ q, u = .tuple q

theorem Store.Separate.symm (h : t.Separate a b) : t.Separate b a := fun u hb ha => h u ha hb

/-- A program that is confined below a node leaves the serialized form of each node without cycles
that is separate from it. -/
theorem Operation.Confined.form_eq (h : Confined a x react program)
    (hx : x.forest.store.WellFormed) (hb : x.forest.store.Has (.node b))
    (hacyclic : Acyclic x.forest.store.parts (.node b)) (hseparate : x.forest.store.Separate a b)
    (hy : performAll (reacting react limit) program x = .ok () y ∨
      ∃ e, performAll (reacting react limit) program x = .error e y) :
    ∃ d : Data ν, x.forest.store.nodeForm b = .ok d ∧ y.forest.store.nodeForm b = .ok d := by
  have hsealed := h.retains hy
  have hend := hx.endsWithin hb hacyclic
  have hagree : ∀ u, Reaches x.forest.store.parts (.node b) u →
      x.forest.store.Agree y.forest.store u := by
    intro u hu
    have hhas := hx.has_reached hb hu
    by_cases hreach : Reaches x.forest.store.parts (.node a) u
    · rcases hseparate u hreach hu with hscalar | ⟨q, rfl⟩
      · cases u <;> trivial
      · exact hsealed.outlives.tuple q hhas
    · by_cases hcell : u.cell? = none
      · cases u <;> trivial
      · exact hsealed.retains u ⟨Option.isSome_iff_ne_none.mpr hcell, hhas, hreach⟩
  obtain ⟨d, hd⟩ := exists_form (ν := ν) hend
  refine ⟨d, hd.formTo_eq hend, ?_⟩
  exact (alike_of_agree hx hsealed.outlives hend hb hagree).form_eq_ok hsealed.outlives hend hd

end Frame

/-! ### A node and its copy -/

/-- Every node without cycles can be copied, and the copy has the same serialized form. What is
reached from both is scalars and what is reached from tuples of the node. If those hold scalars and
tuples only, then whatever a program does that is confined below the one, the form of the other
stays, whether the program succeeds or fails. -/
theorem copyNode_independent (hs : s.WellFormed) (hr : s.Has (.node r))
    (hacyclic : Acyclic s.parts (.node r)) :
    ∃ (c : NodeRef) (t : Store) (d : Data ν), copyNode r s = .ok c t ∧
      t.nodeForm r = .ok d ∧ t.nodeForm c = .ok d ∧
      (∀ u, Reaches t.parts (.node r) u → Reaches t.parts (.node c) u → u.cell? = none ∨
        ∃ q, Reaches s.parts (.node r) (.tuple q) ∧ Reaches s.parts (.tuple q) u) ∧
      (s.PlainTuples (.node r) → ∀ a b, a = r ∧ b = c ∨ a = c ∧ b = r →
        ∀ (x : World σ) react limit program y, x.forest.store = t →
          Operation.Confined a x react program →
          (Operation.performAll (Operation.reacting react limit) program x = .ok () y ∨
            ∃ e, Operation.performAll (Operation.reacting react limit) program x = .error e y) →
          y.forest.store.nodeForm b = .ok d) := by
  obtain ⟨c, t, hc, he, ht, hcopy⟩ := copyNode_spec hs hr hacyclic
  have hend := hs.endsWithin hr hacyclic
  have hendt := hs.endsWithin_of_extends he hr hend
  have hendc := hcopy.endsWithin hs he hr hend
  obtain ⟨d, -, hformr, hformc⟩ := hcopy.nodeForm_eq (ν := ν) hs he hr hacyclic
  have hshared : ∀ u, Reaches t.parts (.node r) u → Reaches t.parts (.node c) u → u.cell? = none ∨
      ∃ q, Reaches s.parts (.node r) (.tuple q) ∧ Reaches s.parts (.tuple q) u := fun u hur huc =>
    hcopy.shared hs he hr huc (hs.has_reached hr (hs.reaches_of_extends he hr hur))
  refine ⟨c, t, d, hc, hformr, hformc, hshared, fun hplain => ?_⟩
  have hseparate : t.Separate r c := fun u hur huc =>
    (hshared u hur huc).elim .inl fun ⟨q, hq, hu⟩ => hplain.of_tuple hq hu
  rintro a b hab x react limit program y rfl hconfined hy
  rcases hab with ⟨rfl, rfl⟩ | ⟨rfl, rfl⟩
  · obtain ⟨d', hd', hyd'⟩ :=
      hconfined.form_eq (ν := ν) ht (hcopy.has he hr) hendc.acyclic hseparate hy
    exact hyd'.trans (hd'.symm.trans hformc)
  · obtain ⟨d', hd', hyd'⟩ :=
      hconfined.form_eq (ν := ν) ht (he.has hr) hendt.acyclic hseparate.symm hy
    exact hyd'.trans (hd'.symm.trans hformr)

/-- A node with a child that has a list as its value. -/
def Store.shelf : Store :=
  let s := (initial.allocList [.int 1]).2
  let s := (s.allocNode { Builtin.node "k" Builtin.property .plain with value := .list ⟨0⟩ }).2
  (s.allocNode { Builtin.node "root" Builtin.property .plain with
    children := .ofList [("k", ⟨8⟩)] }).2

/-- The same with a copy of the node. -/
def Store.shelves : Store :=
  let s := (shelf.allocList [.int 1]).2
  let s := (s.allocNode { Builtin.node "k" Builtin.property .plain with value := .list ⟨1⟩ }).2
  (s.allocNode { Builtin.node "root" Builtin.property .plain with
    children := .ofList [("k", ⟨10⟩)] }).2

theorem Store.shelf_wellFormed : shelf.WellFormed :=
  initial_wellFormed.allocList (by decide)
    |>.allocNode (by decide) rfl (by decide)
    |>.allocNode (by decide) rfl (by decide)

/-- Both nodes under wrappers. -/
def shelvedWorld : World Unit :=
  { forest := { store := .shelves, wrappers := #[.ofNode ⟨9⟩ none, .ofNode ⟨11⟩ none] },
    user := () }

/-- The list in the copy is changed in place, the value of its child is set, and then all fails. -/
def rearranging : List (Operation Unit) :=
  [.writeList ⟨1⟩ [.int 2], .setValue ⟨1⟩ (.str "new") ["k"] false, .abort (.aborted "stop")]

theorem rearranging_independent : ∃ (d : Data Empty) (y : World Unit),
    copyNode ⟨9⟩ Store.shelf = .ok ⟨11⟩ Store.shelves ∧ Store.shelves.nodeForm ⟨9⟩ = .ok d ∧
      Operation.performAll (Operation.reacting (fun _ _ _ => []) 1) rearranging shelvedWorld =
        .error (.aborted "stop") y ∧ y.forest.store.nodeForm ⟨9⟩ = .ok d := by
  have hend : EndsWithin Store.shelf.parts 4 (.node ⟨9⟩) := by decide
  obtain ⟨c, t, d, hc, hformr, -, -, hleaves⟩ := copyNode_independent (ν := Empty) (σ := Unit)
    Store.shelf_wellFormed (r := ⟨9⟩) (by decide) hend.acyclic
  have hcopy : copyNode ⟨9⟩ Store.shelf = .ok ⟨11⟩ Store.shelves := rfl
  cases hc.symm.trans hcopy
  have hplain : Store.shelf.PlainTuples (.node ⟨9⟩) := fun r _ p hp => by
    simp [tuple, Store.shelf, Store.initial, allocList, allocNode] at hp
  have hconfined : Operation.Confined ⟨11⟩ shelvedWorld (fun _ _ _ => []) rearranging := by
    have hscalar := fun v => (sealed_elsewhere Store.shelves ⟨11⟩).not_of_cell?_eq_none (v := v)
    have hchild : Value.node ⟨10⟩ ∈ Store.shelves.parts (.node ⟨11⟩) :=
      (Store.shelves.node ⟨11⟩).entry_mem_parts .children (by decide)
    have hlist : Reaches Store.shelves.parts (.node ⟨11⟩) (.list ⟨1⟩) :=
      ((Reaches.refl _).below hchild).below (Store.shelves.node ⟨10⟩).value_mem_parts
    refine ⟨fun _ _ _ _ => trivial, ⟨List.forall_mem_nil _, ?_⟩, ⟨?_, ?_⟩, ?_, trivial⟩
    · exact List.forall_mem_cons.mpr ⟨fun h => h.2.2 hlist,
        List.forall_mem_singleton.mpr (hscalar _ rfl)⟩
    · exact List.forall_mem_singleton.mpr fun h => h.2.2 (.refl _)
    · exact List.forall_mem_singleton.mpr (hscalar _ rfl)
    · exact ⟨List.forall_mem_nil _, List.forall_mem_nil _⟩
  exact ⟨d, _, hcopy, hformr, rfl,
    hleaves hplain ⟨11⟩ ⟨9⟩ (.inr ⟨rfl, rfl⟩) shelvedWorld _ 1 rearranging _ rfl hconfined
      (.inr ⟨_, rfl⟩)⟩

end LiveTree
