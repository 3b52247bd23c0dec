import LiveTree.Entries

/-! Values, and the nodes that hold them. Lists, tuples, dictionaries and nodes have an identity,
so a value refers to them by a reference into a store; the other values are their own content. -/

namespace LiveTree

/-- The place of a node in a store. -/
structure NodeRef where
  index : Nat
  deriving DecidableEq, Inhabited, Repr

/-- The place of a list in a store. -/
structure ListRef where
  index : Nat
  deriving DecidableEq, Inhabited, Repr

/-- The place of a tuple in a store. -/
structure TupleRef where
  index : Nat
  deriving DecidableEq, Inhabited, Repr

/-- The place of a dictionary in a store. -/
structure DictRef where
  index : Nat
  deriving DecidableEq, Inhabited, Repr

/-- A value that a node can hold or an expression can produce. -/
inductive Value where
  | none
  | bool (b : Bool)
  | int (i : Int)
  | float (x : Float)
  | str (s : String)
  | list (r : ListRef)
  | tuple (r : TupleRef)
  | dict (r : DictRef)
  | node (r : NodeRef)
  deriving Inhabited

namespace Value

/-- Whether the value is the absent value. -/
def isNone : Value → Bool
  | none => true
  | _ => false

/-- The node that a value is. -/
def asNode? : Value → Option NodeRef
  | node r => some r
  | _ => .none

/-- The text that a value is. -/
def asText? : Value → Option String
  | str s => some s
  | _ => .none

/-- The name of a value's class, for messages that refuse it. -/
def className : Value → String
  | none => "NoneType"
  | bool _ => "bool"
  | int _ => "int"
  | float _ => "float"
  | str _ => "str"
  | list _ => "list"
  | tuple _ => "tuple"
  | dict _ => "dict"
  | node _ => "Node"

end Value

/-- What a node is for. It is decided by the id of the node's type when the node is made. -/
inductive Kind where
  | lit
  | ref
  | op
  | expr
  | type
  | constraint
  | operator
  | plain
  deriving DecidableEq, Inhabited, Repr

namespace Kind

/-- The kind of the nodes whose type has the given id. -/
def ofTypeId (id : String) : Kind :=
  if id = "Lit" then lit
  else if id = "Ref" then ref
  else if id = "Op" then op
  else if id = "Expr" then expr
  else if id = "Type" then type
  else if id = "Constraint" then constraint
  else if id = "Operator" then operator
  else plain

/-- Literals, references and operator calls are the kinds that evaluation computes; any other
node stands for the value it holds. -/
def isExpression : Kind → Bool
  | lit | ref | op => true
  | _ => false

/-- The word for a kind. -/
def name : Kind → String
  | lit => "lit"
  | ref => "ref"
  | op => "op"
  | expr => "expr"
  | type => "type"
  | constraint => "constraint"
  | operator => "operator"
  | plain => "plain"

end Kind

/-- The three independent maps of a node. -/
inductive Role where
  | metadata
  | constraints
  | children
  deriving DecidableEq, Inhabited, Repr

namespace Role

/-- The roles in the order in which a node is written. -/
def all : List Role := [metadata, constraints, children]

/-- The word for a role. -/
def name : Role → String
  | metadata => "metadata"
  | constraints => "constraints"
  | children => "children"

/-- The role that a word names. -/
def ofName? (s : String) : Option Role := all.find? (·.name = s)

end Role

/-- The record from which structure, types, expressions and constraints are all made. -/
structure Node where
  id : String
  type : NodeRef
  kind : Kind
  value : Value
  default : Value
  metadata : Entries NodeRef
  constraints : Entries NodeRef
  children : Entries NodeRef
  deriving Inhabited

namespace Node

/-- One of the three maps. -/
def entries (n : Node) : Role → Entries NodeRef
  | .metadata => n.metadata
  | .constraints => n.constraints
  | .children => n.children

/-- The node with one of its maps exchanged. -/
def withEntries (n : Node) (role : Role) (m : Entries NodeRef) : Node :=
  match role with
  | .metadata => { n with metadata := m }
  | .constraints => { n with constraints := m }
  | .children => { n with children := m }

@[simp] theorem entries_withEntries (n : Node) (role : Role) (m : Entries NodeRef) :
    (n.withEntries role m).entries role = m := by
  cases role <;> rfl

end Node

end LiveTree
