import LiveTree.Build.Rule
import LiveTree.Value.Arithmetic

/-! Blueprints: descriptions of values and nodes that are still to be made. Building one makes its
nodes anew each time. A label names a node so that the same node can be used again, and a custom
type is made once for each id. -/

namespace LiveTree

/-- The ready-made constraints. -/
inductive RuleName where
  | minLength
  | maxLength
  | minValue
  | maxValue
  deriving DecidableEq, Inhabited, Repr

/-- A description of a value. -/
inductive Blueprint where
  | none
  | bool (b : Bool)
  | int (i : Int)
  | float (x : Float)
  | text (s : String)
  | list (items : List Blueprint)
  | tuple (items : List Blueprint)
  | dict (entries : List (String × Blueprint))
  /-- A node under a name. -/
  | labelled (label : String) (b : Blueprint)
  /-- The node with that name. -/
  | use (label : String)
  /-- The type with that id. -/
  | type (id : String)
  | lit (v : Blueprint)
  | ref (dotted : String)
  | path (segments : List Blueprint)
  | op (name : String) (args : List Blueprint)
  | node (id : String) (type value default : Blueprint)
    (metadata constraints children : List (String × Blueprint))
  | constraint (name : String) (rule : Blueprint) (message : Option String)
  | required (message : Option String)
  | rule (name : RuleName) (bound : Blueprint) (message : Option String)
  | inRange (low high : Blueprint) (message : Option String)
  /-- A call around a call, so many times. -/
  | nest (name : String) (count : Nat) (base : Blueprint) (before after : List Blueprint)
  /-- Children of which each refers to the one before, so many of them. -/
  | chain (count : Nat) (base : Blueprint)
  deriving Inhabited

/-- Where blueprints are built: a store, the labelled nodes and the custom types. -/
structure Bench where
  store : Store
  labels : Entries NodeRef
  types : Entries NodeRef
  deriving Inhabited

/-- Building can fail; what has been made by then stays. -/
abbrev BuildM : Type → Type := EStateM Fault Bench

namespace BuildM

/-- An operation on the store of the bench. -/
def onStore {α : Type} (m : StoreM α) : BuildM α := fun b =>
  match m.run b.store with
  | .ok a s => .ok a { b with store := s }
  | .error e s => .error e { b with store := s }

/-- The built-in or custom type with an id. -/
def typeNode (id : String) : BuildM NodeRef := do
  match Builtin.ofId? id with
  | some t => return t
  | none =>
    match (← get).types.get? id with
    | some t => return t
    | none => do
      let t ← onStore (Make.type id)
      modify fun b => { b with types := b.types.insert id t }
      return t

/-- The node that a value is. -/
def asNode (v : Value) : BuildM NodeRef :=
  match v with
  | .node r => pure r
  | _ => throw .absentField

/-- The nodes that values are. -/
def asNodes (vs : List Value) : BuildM (List NodeRef) := vs.mapM asNode

/-- The map of nodes that named values are. -/
def asEntries (vs : List (String × Value)) : BuildM (Entries NodeRef) := do
  return .ofList (← vs.mapM fun p => do return (p.1, ← asNode p.2))

/-- A ready-made constraint. -/
def rule (name : RuleName) (bound : Value) (message : Option String) : BuildM NodeRef :=
  onStore <| match name with
    | .minLength => Make.minLength bound message
    | .maxLength => Make.maxLength bound message
    | .minValue => Make.minValue bound message
    | .maxValue => Make.maxValue bound message

/-- Does something to a node so many times over. -/
def iterate (f : NodeRef → BuildM NodeRef) : Nat → NodeRef → BuildM NodeRef
  | 0, r => pure r
  | n + 1, r => do iterate f n (← f r)

/-- The members of a chain after its base. -/
def chainMembers : Nat → Nat → BuildM (List (String × NodeRef))
  | 0, _ => return []
  | n + 1, i => do
    let r ← onStore (Make.ref ("parent.n" ++ toString i ++ ".value"))
    let id := "n" ++ toString (i + 1)
    let member ← onStore (Make.property id { value := .node r })
    return (id, member) :: (← chainMembers n (i + 1))

end BuildM

namespace Blueprint

open BuildM

mutual

/-- Makes the value that a blueprint describes. -/
def build : Blueprint → BuildM Value
  | none => return .none
  | bool b => return .bool b
  | int i => return .int i
  | float x => return .float x
  | text s => return .str s
  | list items => do
    let vs ← buildAll items
    onStore (.update (·.newList vs))
  | tuple items => do
    let vs ← buildAll items
    onStore (.update (·.newTuple vs))
  | dict entries => do
    let vs ← buildEntries entries
    onStore (.update (·.newDict (.ofList vs)))
  | labelled label b => do
    let v ← build b
    let r ← asNode v
    modify fun bench => { bench with labels := bench.labels.insert label r }
    return v
  | use label => do
    match (← get).labels.get? label with
    | some r => return .node r
    | Option.none => throw .noHandle
  | type id => return .node (← typeNode id)
  | lit v => do
    let v ← build v
    return .node (← onStore (Make.lit v))
  | ref dotted => return .node (← onStore (Make.ref dotted))
  | path segments => do
    let vs ← buildAll segments
    return .node (← onStore (Make.path vs))
  | op name args => do
    let rs ← asNodes (← buildAll args)
    return .node (← onStore (Make.op name rs))
  | node id nodeType value default metadata constraints children => do
    let nodeType ← build nodeType
    let value ← build value
    let default ← build default
    let metadata ← asEntries (← buildEntries metadata)
    let constraints ← asEntries (← buildEntries constraints)
    let children ← asEntries (← buildEntries children)
    let content : Content := { value, default, metadata, constraints, children }
    return .node (← onStore (Make.typed id nodeType content))
  | constraint name condition message => do
    let v ← build condition
    return .node (← onStore (Make.constraint name v message))
  | required message => return .node (← onStore (Make.required message))
  | rule name bound message => do
    let v ← build bound
    return .node (← BuildM.rule name v message)
  | inRange low high message => do
    let low ← build low
    let high ← build high
    return .node (← onStore (Make.inRange low high message))
  | nest name count base before after => do
    let base ← asNode (← build base)
    let wrap (r : NodeRef) : BuildM NodeRef := do
      let before ← asNodes (← buildAll before)
      let after ← asNodes (← buildAll after)
      onStore (Make.op name (before ++ r :: after))
    return .node (← iterate wrap count base)
  | chain count base => do
    let base ← build base
    let first ← onStore (Make.property "n0" { value := base })
    let members ← chainMembers (count - 1) 0
    let children := Entries.ofList (("n0", first) :: members)
    return .node (← onStore (Make.property "chain" { children := children }))

/-- Makes the values that blueprints describe, in order. -/
def buildAll : List Blueprint → BuildM (List Value)
  | [] => return []
  | b :: rest => do
    let v ← build b
    return v :: (← buildAll rest)

/-- Makes named values, in order. -/
def buildEntries : List (String × Blueprint) → BuildM (List (String × Value))
  | [] => return []
  | (k, b) :: rest => do
    let v ← build b
    return (k, v) :: (← buildEntries rest)

end

/-- Makes the node that a blueprint describes. -/
def buildNode (b : Blueprint) : BuildM NodeRef := do asNode (← build b)

end Blueprint

end LiveTree
