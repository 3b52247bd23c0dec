import LiveTree.Fault
import LiveTree.Store
import LiveTree.Text.Path

/-! Making nodes: literals, references, operator calls, constraints and plain nodes. -/

namespace LiveTree

/-- An operation on a store that can fail. What it has added when it fails stays. -/
abbrev StoreM : Type → Type := EStateM Fault Store

namespace StoreM

/-- A store operation with a result. -/
def update {α : Type} (f : Store → α × Store) : StoreM α := modifyGet f

/-- Reads off the store, or fails. -/
def check {α : Type} (f : Store → Except Fault α) : StoreM α := do
  match f (← get) with
  | .ok a => return a
  | .error e => throw e

end StoreM

/-- What a new node holds besides its id and type. -/
structure Content where
  value : Value := .none
  default : Value := .none
  metadata : Entries NodeRef := ∅
  constraints : Entries NodeRef := ∅
  children : Entries NodeRef := ∅

namespace Make

/-- A node of a given type. -/
def node (id : String) (type : NodeRef) (content : Content) : StoreM NodeRef :=
  .update (·.makeNode id type content.value content.default content.metadata content.constraints
    content.children)

/-- A node whose type is given as a value, which has to be a node. -/
def typed (id : String) (type : Value) (content : Content) : StoreM NodeRef :=
  match type with
  | .node t => node id t content
  | v => throw (.notAType id v.className)

/-- A type. -/
def type (id : String) : StoreM NodeRef := node id Builtin.type {}

/-- A plain node. -/
def property (id : String) (content : Content) : StoreM NodeRef := node id Builtin.property content

/-- A literal. -/
def lit (v : Value) : StoreM NodeRef := node "lit" Builtin.lit { value := v }

/-- Whether a list of segments is no path. -/
def isNoPath : List Value → Bool
  | [] => true
  | [.str s] => s.isEmpty
  | _ => false

/-- A reference along the given segments, of which there has to be one. -/
def path (segments : List Value) : StoreM NodeRef := do
  if isNoPath segments then throw .emptyPath
  let r ← StoreM.update (·.allocList segments)
  node "ref" Builtin.ref { value := .list r }

/-- A reference along a dotted path. -/
def ref (dotted : String) : StoreM NodeRef := path ((Text.dotted dotted).map .str)

/-- The keys of so many arguments, counted from a number. -/
def numbered (i : Nat) : List NodeRef → List (String × NodeRef)
  | [] => []
  | r :: rest => ("arg" ++ toString i, r) :: numbered (i + 1) rest

theorem map_snd_numbered (i : Nat) (args : List NodeRef) :
    (numbered i args).map Prod.snd = args := by
  induction args generalizing i with
  | nil => rfl
  | cons r rest ih => rw [numbered, List.map_cons, ih]

theorem mem_of_mem_numbered {i : Nat} {args : List NodeRef} {r : NodeRef}
    (h : r ∈ (Entries.ofList (numbered i args)).values) : r ∈ args := by
  have h := Entries.mem_values_ofList h
  rwa [map_snd_numbered] at h

/-- A call of an operator on arguments. -/
def op (name : String) (args : List NodeRef) : StoreM NodeRef :=
  node name Builtin.op { children := .ofList (numbered 0 args) }

/-- A constraint, whose value has to come out true, with the words for when it does not. -/
def constraint (name : String) (rule : Value) (message : Option String) : StoreM NodeRef := do
  let metadata ← match message with
    | none => pure ∅
    | some text => do
      let r ← property "message" { value := .str text }
      pure (Entries.ofList [("message", r)])
  node name Builtin.constraint { value := rule, metadata := metadata }

end Make

end LiveTree
