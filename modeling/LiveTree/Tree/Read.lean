import LiveTree.Eval.Evaluate
import LiveTree.Tree.Change

/-! Evaluated reads of a tree: values, metadata, constraints, validation and snapshots. They need
a registry, on the wrapper or on an ancestor. -/

namespace LiveTree

/-- The outcome of checking constraints: the words of those that fail, by name. -/
abbrev Failures : Type := Entries String

/-- The key under which a snapshot keeps the value of a node that also has children. -/
def ownValueKey : String := "_value"

/-- The key under which a validation reports the node it started from. -/
def rootKey : String := "root"

namespace TreeM

variable {σ : Type} [Host]

/-- The context for evaluating at a wrapper, with the registry that another wrapper sees. -/
def context (w target : WrapperRef) : TreeM σ Context := do
  let f ← forest
  match f.registry w with
  | none => throw .noRegistry
  | some registry =>
    let root := (f.wrapper (f.root w)).node
    return {
      current := (f.wrapper target).node, root, registry, bindings := none, depth := 0,
      lookup := some (f.lookup target root) }

/-- What a node stands for: an expression is evaluated, a node held as the value too, and any
other value is itself. -/
def readNode (c : Context) (r : NodeRef) : TreeM σ Value := do
  let n := (← forest).store.node r
  if n.kind.isExpression then eval (evaluate c r)
  else match n.value with
  | .node v => eval (evaluate c v)
  | v => return v

/-- The value of the node that a path leads to, absent if it leads to none. -/
def getValue (w : WrapperRef) (path : Path) : TreeM σ Value := do
  checkAlive w
  match ← descend w path with
  | none => return .none
  | some target => do
    let c ← context w target
    readNode c c.current

/-- The value of a metadata entry, evaluated for the node that it describes. -/
def getMetadata (w : WrapperRef) (key : String) : TreeM σ Value := do
  checkAlive w
  match ((← forest).nodeAt w).metadata.get? key with
  | none => return .none
  | some r => do
    let c ← context w w
    readNode c r

/-- Whether a value counts as true. -/
def isTrue (v : Value) : TreeM σ Bool := do return (← forest).store.truthy v

/-- Whether a constraint holds. One that is not there or has no value does. -/
def getConstraint (w : WrapperRef) (key : String) : TreeM σ Bool := do
  checkAlive w
  let f ← forest
  match (f.nodeAt w).constraints.get? key with
  | none => return true
  | some r =>
    match (f.store.node r).value with
    | .none => return true
    | .node rule => do
      let c ← context w w
      isTrue (← eval (evaluate c rule))
    | v => isTrue v

/-- The words for a constraint that fails: its message, evaluated if it is a node. -/
def failureMessage (w : WrapperRef) (key : String) (rule : NodeRef) : TreeM σ String := do
  let s := (← forest).store
  let usual := "Constraint " ++ key ++ " failed"
  match (s.node rule).metadata.get? "message" with
  | none => return usual
  | some r =>
    match (s.node r).value with
    | .none => return usual
    | .node expr => do
      let c ← context w w
      let v ← eval (evaluate c expr)
      check (·.valueText v)
    | v => check (·.valueText v)

/-- Checks constraints one after another. -/
def validateAll (w : WrapperRef) (failures : Failures) : List (String × NodeRef) → TreeM σ Failures
  | [] => return failures
  | (key, rule) :: rest => do
    if ← getConstraint w key then validateAll w failures rest
    else validateAll w (failures.insert key (← failureMessage w key rule)) rest

/-- Checks every constraint of a node. -/
def validate (w : WrapperRef) : TreeM σ Failures := do
  checkAlive w
  validateAll w ∅ ((← forest).nodeAt w).constraints.toList

/-- Checks the constraints of some nodes one after another. -/
def validateEach (failures : Entries Failures) :
    List (WrapperRef × Path) → TreeM σ (Entries Failures)
  | [] => return failures
  | (w, path) :: rest => do
    let found ← validate w
    if found.isEmpty then validateEach failures rest
    else
      let dotted := Text.undotted path
      validateEach (failures.insert (if dotted.isEmpty then rootKey else dotted) found) rest

/-- Checks every constraint of a subtree. What fails is reported by dotted path. -/
def validateDeep (w : WrapperRef) : TreeM σ (Entries Failures) := do
  checkAlive w
  validateEach ∅ (← entries w)

/-- The snapshots of the children under some keys. -/
def snapshotChildren (go : WrapperRef → TreeM σ Value) (w : WrapperRef) (d : Entries Value) :
    List String → TreeM σ (Entries Value)
  | [] => return d
  | key :: rest => do
    match ← updateForest (·.child w key) with
    | none => snapshotChildren go w d rest
    | some c => do
      let n := (← forest).nodeAt c
      let v ← if !n.children.isEmpty || n.kind.isExpression then go c else getValue c []
      snapshotChildren go w (d.insert key v) rest

/-- A new dictionary. -/
def newDict (d : Entries Value) : TreeM σ Value :=
  updateForest fun f =>
    let (v, s) := f.store.newDict d
    (v, { f with store := s })

/-- The snapshot of a subtree, to a given depth. -/
def snapshotTo : Nat → WrapperRef → TreeM σ Value
  | 0, _ => throw .endless
  | n + 1, w => do
    let node := (← forest).nodeAt w
    if node.kind.isExpression then getValue w []
    else if node.value.isNone then do
      newDict (← snapshotChildren (snapshotTo n) w ∅ (← childKeys w))
    else do
      let v ← getValue w []
      let keys ← childKeys w
      if keys.isEmpty then return v
      else newDict (← snapshotChildren (snapshotTo n) w (.ofList [(ownValueKey, v)]) keys)

/-- The evaluated values of a subtree as plain data: a leaf is its value, and a node with children
is a dictionary of theirs, with its own value, if any, under a key of its own. -/
def snapshot (w : WrapperRef) : TreeM σ Value := do
  checkAlive w
  snapshotTo (← visitDepth) w

end TreeM

end LiveTree
