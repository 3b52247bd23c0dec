import LiveTree.Data
import LiveTree.Value

/-! The store: nodes, lists, tuples and dictionaries by reference. Reading is total, a reference
that was never handed out reads as an empty cell. The first eight nodes are the built-in types. -/

namespace LiveTree

/-- The cells that references point to, the remembered argument order of each node, and how the
values that evaluation has noted looked then, latest first. -/
structure Store where
  nodes : Array Node
  argOrders : Array (Option (List String))
  lists : Array (List Value)
  tuples : Array (List Value)
  dicts : Array (Entries Value)
  journal : List (Data (Data Empty))
  deriving Inhabited

/-- What a reference of any sort points to. -/
inductive Cell where
  | node (r : NodeRef)
  | list (r : ListRef)
  | tuple (r : TupleRef)
  | dict (r : DictRef)
  deriving DecidableEq, Inhabited, Repr

/-- The cell of a value with an identity. -/
def Value.cell? : Value → Option Cell
  | .node r => some (.node r)
  | .list r => some (.list r)
  | .tuple r => some (.tuple r)
  | .dict r => some (.dict r)
  | _ => .none

/-- Whether two values are one and the same cell. -/
def Value.sameCell (a b : Value) : Bool := a.cell?.isSome && a.cell? == b.cell?

namespace Builtin

/-- The type of all types, which is its own type. -/
def type : NodeRef := ⟨0⟩
/-- The type of expressions in general. -/
def expr : NodeRef := ⟨1⟩
/-- The type of operator declarations. -/
def operator : NodeRef := ⟨2⟩
/-- The type of constraints. -/
def constraint : NodeRef := ⟨3⟩
/-- The type of plain nodes. -/
def property : NodeRef := ⟨4⟩
/-- The type of literals. -/
def lit : NodeRef := ⟨5⟩
/-- The type of references. -/
def ref : NodeRef := ⟨6⟩
/-- The type of operator calls. -/
def op : NodeRef := ⟨7⟩

/-- The built-in types under their ids. -/
def all : List (String × NodeRef) :=
  [("Type", type), ("Expr", expr), ("Operator", operator), ("Constraint", constraint),
    ("Property", property), ("Lit", lit), ("Ref", ref), ("Op", op)]

/-- The built-in type with the given id. -/
def ofId? (id : String) : Option NodeRef := (all.find? (·.1 = id)).map Prod.snd

/-- The node of a type. -/
def node (id : String) (type : NodeRef) (kind : Kind) : Node :=
  { id, type, kind, value := .none, default := .none, metadata := ∅, constraints := ∅,
    children := ∅ }

end Builtin

namespace Store

/-- The store that holds the built-in types only. -/
def initial : Store where
  nodes := #[Builtin.node "Type" Builtin.type .type, Builtin.node "Expr" Builtin.type .type,
    Builtin.node "Operator" Builtin.type .type, Builtin.node "Constraint" Builtin.type .type,
    Builtin.node "Property" Builtin.type .type, Builtin.node "Lit" Builtin.expr .expr,
    Builtin.node "Ref" Builtin.expr .expr, Builtin.node "Op" Builtin.expr .expr]
  argOrders := Array.replicate 8 none
  lists := #[]
  tuples := #[]
  dicts := #[]
  journal := []

/-- The node at a reference. -/
def node (s : Store) (r : NodeRef) : Node := s.nodes.getD r.index default

/-- The elements of a list. -/
def list (s : Store) (r : ListRef) : List Value := s.lists.getD r.index []

/-- The elements of a tuple. -/
def tuple (s : Store) (r : TupleRef) : List Value := s.tuples.getD r.index []

/-- The entries of a dictionary. -/
def dict (s : Store) (r : DictRef) : Entries Value := s.dicts.getD r.index ∅

/-- The argument order remembered for a node. -/
def argOrder (s : Store) (r : NodeRef) : Option (List String) := s.argOrders.getD r.index none

/-- The node of a node's type. -/
def typeOf (s : Store) (r : NodeRef) : Node := s.node (s.node r).type

/-- The number of cells. A path that visits no cell twice is shorter than this. -/
def size (s : Store) : Nat := s.nodes.size + s.lists.size + s.tuples.size + s.dicts.size

/-- A descent deeper than this has come back to a cell that it started from. -/
def depthBound (s : Store) : Nat := s.size + 1

/-- Adds a node. -/
def allocNode (n : Node) (s : Store) : NodeRef × Store :=
  (⟨s.nodes.size⟩, { s with nodes := s.nodes.push n, argOrders := s.argOrders.push none })

/-- Adds a list. -/
def allocList (l : List Value) (s : Store) : ListRef × Store :=
  (⟨s.lists.size⟩, { s with lists := s.lists.push l })

/-- Adds a tuple. -/
def allocTuple (l : List Value) (s : Store) : TupleRef × Store :=
  (⟨s.tuples.size⟩, { s with tuples := s.tuples.push l })

/-- Adds a dictionary. -/
def allocDict (d : Entries Value) (s : Store) : DictRef × Store :=
  (⟨s.dicts.size⟩, { s with dicts := s.dicts.push d })

/-- Writes a node. -/
def setNode (r : NodeRef) (n : Node) (s : Store) : Store :=
  { s with nodes := s.nodes.setIfInBounds r.index n }

/-- Changes a node. -/
def modifyNode (r : NodeRef) (f : Node → Node) (s : Store) : Store := s.setNode r (f (s.node r))

/-- Writes a list. -/
def setList (r : ListRef) (l : List Value) (s : Store) : Store :=
  { s with lists := s.lists.setIfInBounds r.index l }

/-- Writes a dictionary. -/
def setDict (r : DictRef) (d : Entries Value) (s : Store) : Store :=
  { s with dicts := s.dicts.setIfInBounds r.index d }

/-- Remembers the argument order of a node. -/
def setArgOrder (r : NodeRef) (keys : List String) (s : Store) : Store :=
  { s with argOrders := s.argOrders.setIfInBounds r.index (some keys) }

/-- A new node of the given type, whose kind follows from the type's id. -/
def makeNode (id : String) (type : NodeRef) (value default : Value)
    (metadata constraints children : Entries NodeRef) (s : Store) : NodeRef × Store :=
  s.allocNode
    { id, type, kind := .ofTypeId (s.node type).id, value, default, metadata, constraints, children }

theorem node_setNode_self (s : Store) (r : NodeRef) (n : Node) (h : r.index < s.nodes.size) :
    (s.setNode r n).node r = n := by
  simp [setNode, node, Array.getD, h]

theorem node_setNode_of_ne (s : Store) {r q : NodeRef} (n : Node) (h : q ≠ r) :
    (s.setNode r n).node q = s.node q := by
  have h' : r.index ≠ q.index := fun e => h (by cases q; cases r; simp_all)
  by_cases hq : q.index < s.nodes.size
  · simp [setNode, node, Array.getD, hq, h']
  · simp [setNode, node, Array.getD, hq]

theorem node_allocNode_self (s : Store) (n : Node) :
    (s.allocNode n).2.node (s.allocNode n).1 = n := by
  simp [allocNode, node, Array.getD]

theorem node_allocNode_of_lt (s : Store) (n : Node) {q : NodeRef} (h : q.index < s.nodes.size) :
    (s.allocNode n).2.node q = s.node q := by
  simp [allocNode, node, Array.getD, h, Nat.lt_succ_of_lt h, Array.getElem_push_lt h]

end Store

end LiveTree
