import LiveTree.Eval.Context
import LiveTree.Text.Digit
import LiveTree.Value.Arithmetic

/-! Resolving references. Two marks move along the path: the node that has been reached, and its
owner, which an expression found there sees as `self`. Entering the children makes the child its
own owner; entering metadata or constraints keeps the node that holds the entry. A segment that
leads nowhere makes the whole reference absent. -/

namespace LiveTree

/-- A segment of a path: a name, or a value that names nothing and at most can be looked up. -/
inductive Segment where
  | name (s : String)
  | foreign (hashable : Bool)
  deriving DecidableEq, Inhabited, Repr

namespace Segment

/-- The entry that a segment leads to. -/
def find {α : Type} (m : Entries α) : Segment → Except Fault (Option α)
  | name k => .ok (m.get? k)
  | foreign true => .ok none
  | foreign false => .error .unsupportedOperands

/-- The index that a segment is, digits of any script. -/
def index? : Segment → Except Fault (Option Nat)
  | foreign _ => .error .absentField
  | name k =>
    if k.isEmpty || !k.toList.all Text.isDigit then .ok none
    else match Text.readNat? k.toList with
    | some n => .ok (some n)
    | none => .error .unreadableNumber

end Segment

/-- The words that mean something of their own inside a path. -/
inductive Keyword where
  | value
  | type
  | id
  | children
  | metadata
  | constraints
  | parent
  deriving DecidableEq, Inhabited, Repr

namespace Keyword

/-- The keyword that a word is. -/
def ofName? (s : String) : Option Keyword :=
  if s = "value" then some value
  else if s = "type" then some type
  else if s = "id" then some id
  else if s = "children" then some children
  else if s = "metadata" then some metadata
  else if s = "constraints" then some constraints
  else if s = "parent" then some parent
  else none

/-- The keyword that a segment is. -/
def ofSegment? : Segment → Option Keyword
  | .name s => ofName? s
  | .foreign _ => none

end Keyword

namespace Store

variable (s : Store)

/-- Whether a value can be looked up, to a given depth: lists and dictionaries cannot, nor can
tuples that hold one. -/
def hashableTo : Nat → Value → Bool
  | 0, _ => false
  | n + 1, v =>
    match v with
    | .list _ | .dict _ => false
    | .tuple r => (s.tuple r).all (hashableTo n)
    | _ => true

/-- A value as a segment of a path. -/
def segment : Value → Segment
  | .str t => .name t
  | v => .foreign (s.hashableTo s.depthBound v)

/-- The segments of a path given as a value. An empty or absent path has none, and a text is a
path of its characters. -/
def segments (path : Value) : Except Fault (List Segment) :=
  if !s.truthy path then .ok []
  else match path with
  | .list r => .ok ((s.list r).map s.segment)
  | .tuple r => .ok ((s.tuple r).map s.segment)
  | .str t => .ok (t.toList.map fun c => .name c.toString)
  | .dict _ => .error .absentEntry
  | _ => .error .unsupportedOperands

/-- A map of nodes as a dictionary. -/
def nodeDict (m : Entries NodeRef) : Value × Store := s.newDict (m.map .node)

/-- A field of a node that a loop variable holds. A word that is no field reads as absent. -/
def field (r : NodeRef) (word : String) : Value × Store :=
  let n := s.node r
  if word = "default_value" then (n.default, s)
  else match Keyword.ofName? word with
  | some .value => (n.value, s)
  | some .type => (.node n.type, s)
  | some .id => (.str n.id, s)
  | some .children => s.nodeDict n.children
  | some .metadata => s.nodeDict n.metadata
  | some .constraints => s.nodeDict n.constraints
  | some .parent | none => (.none, s)

end Store

/-- One step from the value of a loop variable: a field of a node, an entry of a dictionary, or an
element of a sequence. `none` ends the path. -/
def bindingStep (v : Value) (seg : Segment) : EvalM (Option Value) := do
  let element (items : List Value) : EvalM (Option Value) := do
    match ← EvalM.ofExcept seg.index? with
    | some i => return some (items.getD i .none)
    | none => return none
  match v with
  | .node r =>
    match seg with
    | .name word => do return some (← EvalM.update (·.field r word))
    | .foreign true => return some .none
    | .foreign false => EvalM.fail .unsupportedOperands
  | .dict r => do
    let entries ← EvalM.read (·.dict r)
    return some ((← EvalM.ofExcept (seg.find entries)).getD .none)
  | .list r => do element (← EvalM.read (·.list r))
  | .tuple r => do element (← EvalM.read (·.tuple r))
  | _ => return none

/-- Follows a path from the value of a loop variable. -/
def followBinding (v : Value) : List Segment → EvalM Value
  | [] => pure v
  | seg :: rest => do
    match ← bindingStep v seg with
    | some v => followBinding v rest
    | none => return .none

/-- Induction along a path. What is to be shown of a path may be supposed of all that is left after
its first segment and later ones, since a word that enters a map takes the next segment as well. -/
theorem Segment.path_induction {motive : List Segment → Prop} (segs : List Segment)
    (nil : motive [])
    (cons : ∀ seg rest, (∀ later, later <:+ rest → motive later) → motive (seg :: rest)) :
    motive segs := by
  suffices h : ∀ later, later <:+ segs → motive later from h segs (List.suffix_refl segs)
  induction segs with
  | nil =>
    intro later hlater
    rwa [List.suffix_nil.mp hlater]
  | cons seg rest ih =>
    intro later hlater
    rcases List.suffix_cons_iff.mp hlater with rfl | hlater
    · exact cons seg rest ih
    · exact ih later hlater

section

variable (eval : Evaluator) (c : Context)

/-- What a path comes to that has ended at a node: an expression, or a node held as the value, is
evaluated for the owner; a node without a value is itself the result. -/
def settle (current owner : NodeRef) : EvalM Value := do
  let n ← EvalM.read (·.node current)
  if n.kind.isExpression then eval (c.focus owner) current
  else match n.value with
  | .none => return .node current
  | .node r => eval (c.focus owner) r
  | v => return v

/-- What the segment `value` comes to at a node. -/
def ownValue (current owner : NodeRef) : EvalM Value := do
  let n ← EvalM.read (·.node current)
  match n.value with
  | .none => return .none
  | v =>
    if n.kind.isExpression then eval (c.focus owner) current
    else match v with
    | .node r => eval (c.focus owner) r
    | v => return v

/-- Follows a path from a node, if there is one. -/
def walk : Option NodeRef → NodeRef → List Segment → EvalM Value
  | none, _, _ => return .none
  | some current, owner, [] => settle eval c current owner
  | some current, owner, seg :: rest => do
    let n ← EvalM.read (·.node current)
    match Keyword.ofSegment? seg with
    | some .value => ownValue eval c current owner
    | some .type => walk (some n.type) n.type rest
    | some .id => return .str n.id
    | some .children =>
      match rest with
      | [] => return .none
      | key :: rest => do
        let found ← EvalM.ofExcept (key.find n.children)
        walk found (found.getD owner) rest
    | some .metadata =>
      match rest with
      | [] => return .none
      | key :: rest => do walk (← EvalM.ofExcept (key.find n.metadata)) current rest
    | some .constraints =>
      match rest with
      | [] => return .none
      | key :: rest => do walk (← EvalM.ofExcept (key.find n.constraints)) current rest
    | some .parent => do
      let found ← EvalM.check (c.parent · current)
      walk found (found.getD owner) rest
    | none => do
      match ← EvalM.ofExcept (seg.find n.children) with
      | some child => walk (some child) child rest
      | none =>
        match ← EvalM.ofExcept (seg.find n.metadata) with
        | some entry => walk (some entry) current rest
        | none => return .none

/-- Resolves the segments of a path. The first one chooses where to start: `self`, `root`,
`parent`, a loop variable, or else the node that `self` means. -/
def resolveSegments : List Segment → EvalM Value
  | [] => return .none
  | start :: rest => do
    if start = .name "self" then walk eval c (some c.current) c.current rest
    else if start = .name "root" then walk eval c (some c.root) c.root rest
    else if start = .name "parent" then do
      let found ← EvalM.check (c.parent · c.current)
      walk eval c found (found.getD c.current) rest
    else do
      let bound ← match c.bindings with
        | some bindings => EvalM.ofExcept (start.find bindings)
        | none => pure none
      match bound with
      | some v => followBinding v rest
      | none => walk eval c (some c.current) c.current (start :: rest)

/-- Resolves a path given as a value. -/
def resolvePath (path : Value) : EvalM Value := do
  resolveSegments eval c (← EvalM.check (·.segments path))

end

end LiveTree
