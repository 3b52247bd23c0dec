import LiveTree.Proofs.Moving
import LiveTree.Proofs.Store.Sealed

/-! Stores that develop. Building nodes, copying, evaluating and changing values or attributes does
no more to a store than this: it makes nodes of types that are there, exchanges what nodes hold
besides their children, and adds or changes other cells. So every node keeps its id, type and kind
and its children, the kind is that of the type's id from the start, and a type was made before its
nodes, which is why a chain of types comes to an end. Nor does any node come to hold one that is not
there. -/

namespace LiveTree

namespace Store

variable {s t u : Store}

/-! ### Children that stay -/

/-- Whether a store has all nodes of another, with the same children. -/
def KeepsChildren (s t : Store) : Prop :=
  ∀ r, s.Has (.node r) → t.Has (.node r) ∧ (t.node r).children = (s.node r).children

theorem KeepsChildren.refl (s : Store) : s.KeepsChildren s := fun _ hr => ⟨hr, rfl⟩

theorem KeepsChildren.trans (h : s.KeepsChildren t) (h' : t.KeepsChildren u) :
    s.KeepsChildren u := by
  intro r hr
  obtain ⟨ht, e⟩ := h r hr
  obtain ⟨hu, e'⟩ := h' r ht
  exact ⟨hu, e'.trans e⟩

theorem Extends.keepsChildren (h : s.Extends t) : s.KeepsChildren t := fun r hr =>
  ⟨h.has hr, by rw [h.node hr]⟩

theorem children_modifyNode (r q : NodeRef) {g : Node → Node}
    (hg : ∀ n, (g n).children = n.children) :
    ((s.modifyNode r g).node q).children = (s.node q).children := by
  by_cases e : q = r
  · subst e
    by_cases hq : q.index < s.nodes.size
    · rw [modifyNode, node_setNode_self _ _ _ hq, hg]
    · simp [modifyNode, setNode, node, Array.getD, hq]
  · rw [modifyNode, node_setNode_of_ne _ _ e]

theorem keepsChildren_modifyNode (r : NodeRef) {g : Node → Node}
    (hg : ∀ n, (g n).children = n.children) : s.KeepsChildren (s.modifyNode r g) := fun q hq =>
  ⟨(has_setNode r _).mpr hq, children_modifyNode r q hg⟩

/-! ### Children before their nodes -/

/-- Whether each node was made after its children. -/
def ChildrenFirst (s : Store) : Prop := ∀ r, ∀ q ∈ (s.node r).children.values, q.index < r.index

/-- Whether the built-in types stand in their places, every other node comes after its type, the kind
of each node is that of its type's id, and the entries of its maps are there. -/
structure Orderly (s : Store) : Prop where
  builtin : ∀ r, initial.Has (.node r) → s.Has (.node r) ∧ (initial.node r).Akin (s.node r)
  before : ∀ r, s.Has (.node r) → r ≠ Builtin.type → (s.node r).type.index < r.index
  kind_eq : ∀ r, s.Has (.node r) → (s.node r).kind = .ofTypeId (s.typeOf r).id
  entries : ∀ r role, ∀ q ∈ ((s.node r).entries role).values, s.Has (.node q)

namespace Orderly

theorem has_builtin (h : s.Orderly) {r : NodeRef} (hr : initial.Has (.node r)) : s.Has (.node r) :=
  (h.builtin r hr).1

theorem type_type (h : s.Orderly) : (s.node Builtin.type).type = Builtin.type :=
  (h.builtin Builtin.type (by decide)).2.type

/-- The type of every node is there, also of one that is not there itself. -/
theorem has_type (h : s.Orderly) (r : NodeRef) : s.Has (.node (s.node r).type) := by
  have htype : s.Has (.node Builtin.type) := h.has_builtin (by decide)
  by_cases hr : s.Has (.node r)
  · by_cases e : r = Builtin.type
    · rwa [e, h.type_type]
    · exact Nat.lt_trans (h.before r hr e) hr
  · rwa [node_of_not_has s hr]

/-- Nodes that stay what they are, new ones of the right kind and entries that are there leave a
store in order. -/
theorem of_akin (h : s.Orderly)
    (hold : ∀ r, s.Has (.node r) → t.Has (.node r) ∧ (s.node r).Akin (t.node r))
    (hnew : ∀ r, s.Between t (.node r) → s.Has (.node (t.node r).type) ∧
      (t.node r).kind = .ofTypeId (s.node (t.node r).type).id)
    (hentries : ∀ r role, ∀ q ∈ ((t.node r).entries role).values, t.Has (.node q)) :
    t.Orderly where
  builtin r hr := by
    obtain ⟨hs, hakin⟩ := h.builtin r hr
    exact ⟨(hold r hs).1, hakin.trans (hold r hs).2⟩
  before r hr hne := by
    by_cases hs : s.Has (.node r)
    · rw [(hold r hs).2.type]
      exact h.before r hs hne
    · exact Nat.lt_of_lt_of_le (hnew r ⟨hs, hr⟩).1 (Nat.le_of_not_lt hs)
  kind_eq r hr := by
    by_cases hs : s.Has (.node r)
    · rw [typeOf, (hold r hs).2.kind, (hold r hs).2.type, (hold _ (h.has_type r)).2.id]
      exact h.kind_eq r hs
    · obtain ⟨htype, hkind⟩ := hnew r ⟨hs, hr⟩
      rw [typeOf, (hold _ htype).2.id]
      exact hkind
  entries := hentries

/-- Exchanging what nodes hold leaves a store in order. -/
theorem of_contents (h : s.Orderly) (hhas : ∀ r, t.Has (.node r) ↔ s.Has (.node r))
    (hakin : ∀ r, s.Has (.node r) → (s.node r).Akin (t.node r))
    (hentries : ∀ r role, ∀ q ∈ ((t.node r).entries role).values, s.Has (.node q)) : t.Orderly :=
  h.of_akin (fun r hr => ⟨(hhas r).mpr hr, hakin r hr⟩) (fun r hr => (hr.1 ((hhas r).mp hr.2)).elim)
    fun r role q hq => (hhas q).mpr (hentries r role q hq)

/-- So does whatever happens to other cells. -/
theorem of_nodes (h : s.Orderly) (hnodes : t.nodes = s.nodes) : t.Orderly := by
  refine h.of_contents (fun r => ?_) (fun r _ => ?_) fun r role q hq => ?_
  · rw [Has, Has, hnodes]
  · rw [node_eq_of_nodes hnodes]
    exact .refl _
  · rw [node_eq_of_nodes hnodes] at hq
    exact h.entries r role q hq

/-- So does changing a node that keeps its id, type and kind and gets entries that are there. -/
theorem modifyNode (h : s.Orderly) (r : NodeRef) {g : Node → Node}
    (hg : (s.node r).Akin (g (s.node r)))
    (hentries : ∀ role, ∀ q ∈ ((g (s.node r)).entries role).values, s.Has (.node q)) :
    (s.modifyNode r g).Orderly := by
  refine h.of_contents (fun _ => has_setNode r _) (fun q _ => akin_setNode hg q)
    fun q role p hp => ?_
  by_cases e : q = r
  · subst e
    by_cases hq : s.Has (.node q)
    · rw [Store.modifyNode, node_setNode_self _ _ _ hq] at hp
      exact hentries role p hp
    · rw [Store.modifyNode, agree_setNode_of_not_has hq] at hp
      exact h.entries q role p hp
  · rw [Store.modifyNode, node_setNode_of_ne _ _ e] at hp
    exact h.entries q role p hp

/-- So does making a node of a type that is there, with entries that are there. -/
theorem makeNode (h : s.Orderly) (id : String) {type : NodeRef} (htype : s.Has (.node type))
    (value default : Value) {metadata constraints children : Entries NodeRef}
    (hentries : ∀ q ∈ metadata.values ++ constraints.values ++ children.values, s.Has (.node q)) :
    (s.makeNode id type value default metadata constraints children).2.Orderly := by
  have he : s.Extends (s.makeNode id type value default metadata constraints children).2 :=
    extends_allocNode _
  have hnew : (s.makeNode id type value default metadata constraints children).2.node
      (s.makeNode id type value default metadata constraints children).1 =
      ⟨id, type, .ofTypeId (s.node type).id, value, default, metadata, constraints, children⟩ :=
    node_allocNode_self _ _
  have hself : ∀ r, s.Between (s.makeNode id type value default metadata constraints children).2
      (.node r) → r = (s.makeNode id type value default metadata constraints children).1 :=
    fun r hr => Value.node.inj (between_allocNode hr)
  refine h.of_akin (fun r hr => ⟨he.has hr, ?_⟩) (fun r hr => ?_) fun r role q hq => ?_
  · rw [he.node hr]
    exact .refl _
  · obtain rfl := hself r hr
    rw [hnew]
    exact ⟨htype, rfl⟩
  by_cases hr : s.Has (.node r)
  · rw [he.node hr] at hq
    exact he.has (h.entries r role q hq)
  by_cases hr' : (s.makeNode id type value default metadata constraints children).2.Has (.node r)
  · obtain rfl := hself r ⟨hr, hr'⟩
    rw [hnew] at hq
    refine he.has (hentries q ?_)
    cases role
    exacts [List.mem_append_left _ (List.mem_append_left _ hq),
      List.mem_append_left _ (List.mem_append_right _ hq), List.mem_append_right _ hq]
  · rw [node_of_not_has _ hr'] at hq
    cases role <;> cases hq

end Orderly

theorem initial_orderly : initial.Orderly where
  builtin _ hr := ⟨hr, .refl _⟩
  before r hr hne := by
    have hall : ∀ i < 8, i ≠ 0 → (initial.node ⟨i⟩).type.index < i := by decide
    exact hall r.index hr fun e => hne (congrArg NodeRef.mk e)
  kind_eq := initial_wellFormed.kind_eq
  entries r role q hq := by
    have hnone : ∀ i < 8, ∀ role, ((initial.node ⟨i⟩).entries role).values = [] := by
      rintro i hi (_ | _ | _) <;> revert i <;> decide
    by_cases hr : initial.Has (.node r)
    · rw [hnone r.index hr role] at hq
      cases hq
    · rw [node_of_not_has _ hr] at hq
      cases role <;> cases hq

/-! ### Developing -/

/-- Whether a store comes from another by making nodes of types that are there, by exchanging what
nodes hold besides their children, in both cases with entries that are there, and by whatever
happens to other cells. -/
inductive Develops (s : Store) : Store → Prop
  | refl : Develops s s
  /-- A node is made. -/
  | made {t : Store} (h : Develops s t) (id : String) {type : NodeRef} (htype : t.Has (.node type))
      (value default : Value) {metadata constraints children : Entries NodeRef}
      (hentries : ∀ q ∈ metadata.values ++ constraints.values ++ children.values,
        t.Has (.node q)) :
    Develops s (t.makeNode id type value default metadata constraints children).2
  /-- A node gets another value, default, metadata or constraints. -/
  | written {t : Store} (h : Develops s t) (r : NodeRef) (value default : Value)
      {metadata constraints : Entries NodeRef}
      (hentries : ∀ q ∈ metadata.values ++ constraints.values, t.Has (.node q)) :
    Develops s (t.modifyNode r fun n => { n with value, default, metadata, constraints })
  /-- Lists, tuples, dictionaries, argument orders or the journal change. -/
  | others {t u : Store} (h : Develops s t) (hnodes : u.nodes = t.nodes) : Develops s u

namespace Develops

theorem trans (h : s.Develops t) (h' : t.Develops u) : s.Develops u := by
  induction h' with
  | refl => exact h
  | made _ id htype value default hentries ih => exact ih.made id htype value default hentries
  | written _ r value default hentries ih => exact ih.written r value default hentries
  | others _ hnodes ih => exact ih.others hnodes

instance : IsPreorder Store Develops where
  refl _ := .refl
  trans _ _ _ := trans

theorem of_nodes (h : t.nodes = s.nodes) : s.Develops t := .others .refl h

/-- A node of a type that is there and of the kind that goes with it is made. -/
theorem allocNode (h : s.Develops t) {n : Node} (htype : t.Has (.node n.type))
    (hkind : n.kind = .ofTypeId (t.node n.type).id)
    (hentries : ∀ q ∈ n.metadata.values ++ n.constraints.values ++ n.children.values,
      t.Has (.node q)) : s.Develops (t.allocNode n).2 := by
  have e : (t.allocNode n).2 =
      (t.makeNode n.id n.type n.value n.default n.metadata n.constraints n.children).2 := by
    rw [makeNode, ← hkind]
  rw [e]
  exact h.made n.id htype n.value n.default hentries

/-- A node keeps its id, type, kind and children, and gets entries that are there. -/
theorem of_modifyNode (r : NodeRef) {g : Node → Node} (hakin : (s.node r).Akin (g (s.node r)))
    (hchildren : (g (s.node r)).children = (s.node r).children)
    (hentries : ∀ q ∈ (g (s.node r)).metadata.values ++ (g (s.node r)).constraints.values,
      s.Has (.node q)) : s.Develops (s.modifyNode r g) := by
  have e : g (s.node r) = { s.node r with
      value := (g (s.node r)).value
      default := (g (s.node r)).default
      metadata := (g (s.node r)).metadata
      constraints := (g (s.node r)).constraints } := by
    rw [Node.mk.injEq]
    exact ⟨hakin.id, hakin.type, hakin.kind, rfl, rfl, rfl, rfl, hchildren⟩
  rw [modifyNode, e]
  exact .written .refl r _ _ hentries

/-- Every node stays, with its id, type and kind. -/
theorem akin (h : s.Develops t) {r : NodeRef} (hr : s.Has (.node r)) :
    t.Has (.node r) ∧ (s.node r).Akin (t.node r) := by
  induction h with
  | refl => exact ⟨hr, .refl _⟩
  | @made t _ id type _ value default metadata constraints children _ ih =>
    have he : t.Extends (t.makeNode id type value default metadata constraints children).2 :=
      extends_allocNode _
    exact ⟨he.has ih.1, ih.2.trans (by rw [he.node ih.1]; exact .refl _)⟩
  | @written t _ q _ _ _ _ _ ih =>
    refine ⟨(has_setNode q _).mpr ih.1, ih.2.trans ?_⟩
    rw [modifyNode]
    refine akin_setNode ?_ r
    exact ⟨rfl, rfl, rfl⟩
  | others _ hnodes ih =>
    refine ⟨?_, by rw [node_eq_of_nodes hnodes]; exact ih.2⟩
    simp only [Has, hnodes]
    exact ih.1

theorem has (h : s.Develops t) {r : NodeRef} (hr : s.Has (.node r)) : t.Has (.node r) :=
  (h.akin hr).1

/-- So do its children. -/
theorem keepsChildren (h : s.Develops t) : s.KeepsChildren t := by
  induction h with
  | refl => exact .refl s
  | made _ _ _ _ _ _ ih => exact ih.trans (extends_allocNode _).keepsChildren
  | written _ q _ _ _ ih => exact ih.trans (keepsChildren_modifyNode q fun _ => rfl)
  | others _ hnodes ih =>
    exact ih.trans fun r hr => ⟨by simp only [Has, hnodes]; exact hr, by rw [node_eq_of_nodes hnodes]⟩

/-- Children that are there when a node is made come before it. -/
theorem childrenFirst (h : s.Develops t) (hs : s.ChildrenFirst) : t.ChildrenFirst := by
  induction h with
  | refl => exact hs
  | @made t _ id type _ value default metadata constraints children hentries ih =>
    have he : t.Extends (t.makeNode id type value default metadata constraints children).2 :=
      extends_allocNode _
    intro r q hq
    by_cases hr : t.Has (.node r)
    · rw [he.node hr] at hq
      exact ih r q hq
    by_cases hr' : (t.makeNode id type value default metadata constraints children).2.Has (.node r)
    · obtain rfl : r = (t.makeNode id type value default metadata constraints children).1 :=
        Value.node.inj (between_allocNode ⟨hr, hr'⟩)
      rw [makeNode, node_allocNode_self] at hq
      exact hentries q (List.mem_append_right _ hq)
    · rw [node_of_not_has _ hr'] at hq
      cases hq
  | @written t _ p value default metadata constraints _ ih =>
    have hsame : ∀ r, ((t.modifyNode p fun n =>
        { n with value, default, metadata, constraints }).node r).children = (t.node r).children :=
      fun r => children_modifyNode p r fun _ => rfl
    intro r q hq
    rw [hsame r] at hq
    exact ih r q hq
  | others _ hnodes ih =>
    intro r q hq
    rw [node_eq_of_nodes hnodes] at hq
    exact ih r q hq

/-- A store in order develops into such stores. -/
theorem orderly (h : s.Develops t) (hs : s.Orderly) : t.Orderly := by
  induction h with
  | refl => exact hs
  | made _ id htype value default hentries ih =>
    exact ih.makeNode id htype value default hentries
  | written _ r value default hentries ih =>
    refine ih.modifyNode r ⟨rfl, rfl, rfl⟩ fun role q hq => ?_
    cases role with
    | metadata => exact hentries q (List.mem_append_left _ hq)
    | constraints => exact hentries q (List.mem_append_right _ hq)
    | children => exact ih.entries r .children q hq
  | others _ hnodes ih => exact ih.of_nodes hnodes

end Develops

end Store

end LiveTree
