import LiveTree.Form.Decode
import LiveTree.Form.Plain
import LiveTree.Script.Step
import LiveTree.Tree.Show

/-! Carrying out scripts. A failing step ends the steps it stands among, unless they are the
outermost ones or the step catches its failure. A notification belongs to the innermost step during
which it is delivered. -/

namespace LiveTree

/-- An operation of a script. -/
abbrev ScriptM : Type → Type := TreeM Session

namespace ScriptM

/-- What the script keeps. -/
def session : ScriptM Session := World.user <$> get

/-- Changes what the script keeps. -/
def modifySession (g : Session → Session) : ScriptM Unit :=
  modify fun x => { x with user := g x.user }

/-- Builds on the store of the forest with the labels and types of the script. -/
def build {α : Type} (m : BuildM α) : ScriptM α := fun x =>
  let bench : Bench := ⟨x.forest.store, x.user.labels, x.user.types⟩
  let back (b : Bench) : World Session :=
    { forest := { x.forest with store := b.store }
      user := { x.user with labels := b.labels, types := b.types } }
  match m.run bench with
  | .ok a b => .ok a (back b)
  | .error e b => .error e (back b)

/-- The wrapper that a name stands for. -/
def handle (name : String) : ScriptM WrapperRef := do
  match (← session).handles.get? name with
  | some (some w) => return w
  | _ => throw .noHandle

/-! ### Answers -/

/-- A value as it is shown. -/
def shownValue (s : Store) (v : Value) : Except Fault Shown :=
  Data.map Leaf.node <$> s.picture v

/-- Answers with a value. -/
def value (v : Value) : ScriptM Shown := TreeM.check (shownValue · v)

/-- Answers with a truth value. -/
def bool (b : Bool) : ScriptM Shown := return .bool b

/-- Answers with a number. -/
def number (n : Nat) : ScriptM Shown := return .int n

/-- Answers with a text. -/
def text (s : String) : ScriptM Shown := return .str s

/-- Answers with texts. -/
def texts (l : List String) : ScriptM Shown := return .list (l.map .str)

/-- Answers with the node, if there is one. -/
def node (r : Option NodeRef) : ScriptM Shown :=
  match r with
  | some r => value (.node r)
  | none => return .null

/-- Answers with nothing. -/
def nothing : ScriptM Shown := return .null

/-- A wrapper as it is shown. -/
def shownWrapper (f : Forest) (w : WrapperRef) : Shown := .leaf (.wrapper (f.describe w))

/-- Answers with wrappers. -/
def wrappers (ws : List WrapperRef) : ScriptM Shown := do
  let f ← TreeM.forest
  return .list (ws.map (shownWrapper f))

/-- Answers with a wrapper, if there is one, and keeps it under a name. -/
def wrapper (keep : Option String) (w : Option WrapperRef) : ScriptM Shown := do
  if let some name := keep then
    modifySession fun x => { x with handles := x.handles.insert name w }
  match w with
  | some w => do return shownWrapper (← TreeM.forest) w
  | none => return .null

/-- Failures as a dictionary. -/
def shownFailures (failures : Failures) : Shown :=
  .dict (failures.toList.map fun p => (p.1, .str p.2))

/-- Whether a validation found nothing, and what it found. -/
def verdict {α : Type} (found : Entries α) (shown : α → Shown) : Shown :=
  .list [.bool found.isEmpty, .dict (found.toList.map fun p => (p.1, shown p.2))]

/-! ### Questions -/

/-- Whether a wrapper passes a test. -/
def passes (f : Forest) (w : WrapperRef) : NodeTest → Bool
  | .all => true
  | .none => false
  | .leaf => (f.nodeAt w).children.isEmpty
  | .hasValue => !(f.nodeAt w).value.isNone
  | .id id => (f.nodeAt w).id == id
  | .idStart start => start.toList.isPrefixOf (f.nodeAt w).id.toList
  | .type id => (f.typeAt w).id == id
  | .depth n => (f.ancestors w).length == n
  | .not t => !passes f w t

/-- Tests a wrapper. -/
def test (t : NodeTest) (w : WrapperRef) : ScriptM Bool := do return passes (← TreeM.forest) w t

section

variable [Host]

/-- Answers a question about a wrapper. -/
def ask (keep : Option String) (w : WrapperRef) (q : Query) : ScriptM Shown := do
  let f ← TreeM.forest
  let x := f.wrapper w
  let n := f.nodeAt w
  match q with
  | .id => text n.id
  | .type => text (f.typeAt w).id
  | .describe => text (f.describe w)
  | .path => texts (f.path w)
  | .pathString => text (Text.undotted (f.path w))
  | .depth => number (f.ancestors w).length
  | .isRoot => bool x.parent.isNone
  | .isDestroyed => bool x.destroyed
  | .parent => wrapper keep x.parent
  | .root => wrapper keep (some (f.root w))
  | .next => do wrapper keep (← TreeM.updateForest (·.nextSibling w))
  | .previous => do wrapper keep (← TreeM.updateForest (·.previousSibling w))
  | .ancestors => wrappers (f.ancestors w)
  | .siblings => do wrappers (← TreeM.updateForest (·.siblings w))
  | .descendants => do wrappers (← TreeM.descendants w)
  | .children => do wrappers (← TreeM.updateForest (·.children w))
  | .every => do
    let ws ← TreeM.findAll w (test .all)
    let f ← TreeM.forest
    texts (ws.map fun c => (f.nodeAt c).id)
  | .childKeys => texts n.children.keys
  | .childCount => number n.children.size
  | .hasChildren => bool !n.children.isEmpty
  | .count => do number (← TreeM.count w)
  | .rawValue => value n.value
  | .defaultValue => value n.default
  | .hasDefault => bool !n.default.isNone
  | .hasValue => bool !n.value.isNone
  | .isEmpty => bool (n.value.isNone && n.children.isEmpty)
  | .metadataKeys => texts n.metadata.keys
  | .constraintKeys => texts n.constraints.keys
  | .subscriptionCount => number x.subscribers.length
  | .registry =>
    match f.registry w with
    | some g => text ("Registry(" ++ sortedNames g.keys ++ ")")
    | none => nothing
  | .form => TreeM.toForm w
  | .validate => do return verdict (← TreeM.validate w) .str
  | .validateDeep => do return verdict (← TreeM.validateDeep w) shownFailures
  | .snapshot => do value (← TreeM.snapshot w)

/-- Answers a question about a wrapper and a key. -/
def askKey (keep : Option String) (w : WrapperRef) (key : String) (q : KeyQuery) :
    ScriptM Shown := do
  let n := (← TreeM.forest).nodeAt w
  match q with
  | .child => do wrapper keep (← TreeM.updateForest (·.child w key))
  | .findById => do wrapper keep (← TreeM.find w (test (.id key)))
  | .findByType => do wrappers (← TreeM.findAll w (test (.type key)))
  | .metadata => do value (← TreeM.getMetadata w key)
  | .constraint => do bool (← TreeM.getConstraint w key)
  | .rawMetadata => node (n.metadata.get? key)
  | .rawConstraint => node (n.constraints.get? key)
  | .hasMetadata => bool (n.metadata.contains key)
  | .hasConstraint => bool (n.constraints.contains key)

end

/-! ### Changes behind the wrappers' backs -/

/-- The position that an index means in so many elements. Negative ones count from the end. -/
def position? (length : Nat) (i : Int) : Option Nat :=
  let j := if i < 0 then i + length else i
  if 0 ≤ j && j < length then some j.toNat else none

theorem position?_lt {length : Nat} {i : Int} {j : Nat} (h : position? length i = some j) :
    j < length := by
  simp only [position?, Bool.and_eq_true, decide_eq_true_eq, Option.ite_none_right_eq_some,
    Option.some.injEq] at h
  omega

/-- What stands at a place inside a value. -/
def item (s : Store) (v : Value) (place : Inward) : Except Fault Value :=
  let element (items : List Value) (i : Int) : Except Fault Value :=
    match (position? items.length i).bind fun j => items[j]? with
    | some v => .ok v
    | none => .error .absentElement
  match v, place with
  | .list r, .index i => element (s.list r) i
  | .tuple r, .index i => element (s.tuple r) i
  | .str t, .index i => element (t.toList.map fun c => .str c.toString) i
  | .dict r, .key k =>
    match (s.dict r).get? k with
    | some v => .ok v
    | none => .error .absentEntry
  | .dict _, .index _ => .error .absentEntry
  | _, _ => .error .unsupportedOperands

/-- The value inside a value that some places lead to. -/
def inside (s : Store) : Value → List Inward → Except Fault Value
  | v, [] => .ok v
  | v, place :: rest => do inside s (← item s v place) rest

/-- Changes a list or dictionary in place. -/
def editValue (v : Value) : Edit → ScriptM Unit
  | .append b => do
    match v with
    | .list r => do
      let new ← build b.build
      TreeM.modifyForest (·.modifyStore fun s => s.setList r (s.list r ++ [new]))
    | _ => throw .absentField
  | .put place b => do
    let new ← build b.build
    match v, place with
    | .list r, .index i => do
      let items := (← TreeM.forest).store.list r
      match position? items.length i with
      | some j => TreeM.modifyForest (·.modifyStore (·.setList r (items.set j new)))
      | none => throw .absentElement
    | .dict r, .key k =>
      TreeM.modifyForest (·.modifyStore fun s => s.setDict r ((s.dict r).insert k new))
    | _, _ => throw .unsupportedOperands

/-- A value of a node. -/
def fieldOf (n : Node) : ValueField → Value
  | .value => n.value
  | .default => n.default

/-- The node that a field of a node is. -/
def heldNode? (n : Node) (field : String) : Option NodeRef :=
  if field = "value" then n.value.asNode?
  else if field = "default_value" then n.default.asNode?
  else if field = "type" then some n.type
  else none

/-! ### Steps -/

/-- Carries out an operation as a step of its own: what it is notified of, notes and carries out
inside goes to its record. -/
def recorded (m : ScriptM Shown) : ScriptM Record := do
  let before ← session
  let journal := (← TreeM.forest).store.journal
  let setJournal (l : List (Data (Data Empty))) : ScriptM Unit :=
    TreeM.modifyForest (·.modifyStore fun s => { s with journal := l })
  modifySession fun x => { x with events := [], inner := none }
  setJournal []
  let result ← tryCatch (Except.ok <$> m) fun e => return .error e
  let noted := (← TreeM.forest).store.journal.reverse.map (Data.map Leaf.node)
  let after ← session
  modifySession fun x => { x with events := before.events, inner := before.inner }
  setJournal journal
  return .mk result after.events noted after.inner

/-- Carries out an operation whose inner steps do not belong to the current step, and gives what
came of them. -/
def enclosed (m : ScriptM Unit) : ScriptM (List Record × Except Fault Unit) := do
  let before := (← session).inner
  modifySession fun x => { x with inner := some [] }
  let result ← tryCatch (Except.ok <$> m) fun e => return .error e
  let records := (← session).inner.getD []
  modifySession fun x => { x with inner := before }
  return (records, result)

/-- Notes that another step inside the current one has been carried out. -/
def keepRecord (record : Record) : ScriptM Unit :=
  modifySession fun x => { x with inner := some (x.inner.getD [] ++ [record]) }

/-- Notes a notification. -/
def keepEvent (event : Event) : ScriptM Unit :=
  modifySession fun x => { x with events := x.events ++ [event] }

/-- Adds a listener. -/
def addListener (l : Listener) : ScriptM Nat := do
  let n := (← session).listeners.size
  modifySession fun x => { x with listeners := x.listeners.push l }
  return n

/-- The text of a subscription's number. -/
def subscriptionText (n : Nat) : String := "sub_" ++ toString n

/-- Keeps a new subscription under a name. -/
def keepSubscription (name : String) (w : WrapperRef) (n : Nat) : ScriptM Shown := do
  modifySession fun x => { x with subscriptions := x.subscriptions.insert name (w, n) }
  text (subscriptionText n)

/-- A subscription by its name. -/
def subscription (name : String) : ScriptM (WrapperRef × Nat) := do
  match (← session).subscriptions.get? name with
  | some p => return p
  | none => throw .noHandle

/-- Carries out a change whose answer is nothing. -/
def silently (m : ScriptM Unit) : ScriptM Shown := do
  m
  nothing

section

variable [Host] (notify : Notify Session)

mutual

/-- Carries out a step. -/
def runStep : Step → ScriptM Record
  | (_, act) => recorded (runAct act)

/-- Carries out the steps of a body. The record of a failing step is kept, and its failure ends
the body unless the step catches it. -/
def runBody : List Step → ScriptM Unit
  | [] => return
  | st :: rest => do
    let record ← runStep st
    keepRecord record
    let .mk result _ _ _ := record
    match result with
    | .ok _ => runBody rest
    | .error e => if st.1 then runBody rest else throw e

/-- Carries out the steps for nodes of the given id. -/
def runVisit (id : String) : List (String × List Step) → ScriptM Unit
  | [] => return
  | (other, steps) :: rest => do
    if other = id then
      let (_, result) ← enclosed (runBody steps)
      if let .error e := result then throw e
    runVisit id rest

/-- Does what a step says. -/
def runAct : Act → ScriptM Shown
  | .abort message => throw (.aborted message)
  | .sameWrapper a b => do
    let handles := (← session).handles
    bool (decide ((handles.get? a).join = (handles.get? b).join))
  | .at target deed => do runDeed target.keep (← handle target.on) deed

/-- Does a deed on a wrapper. -/
def runDeed (keep : Option String) (w : WrapperRef) : Deed → ScriptM Shown
  | .ask q => ask keep w q
  | .askKey q key => askKey keep w key q
  | .hasAny role => do bool !(((← TreeM.forest).nodeAt w).entries role).isEmpty
  | .descend path => do wrapper keep (← TreeM.descend w path)
  | .getValue path => do value (← TreeM.getValue w path)
  | .setValue b path silent => do
    let v ← build b.build
    silently (TreeM.setValue notify w v path silent)
  | .reset silent => silently (TreeM.reset notify w silent)
  | .resetDeep silent => silently (TreeM.resetDeep notify w silent)
  | .setEntry role key b silent => do
    let r ← build b.buildNode
    silently (TreeM.setEntry notify role w key r silent)
  | .removeEntry role key silent => do bool (← TreeM.removeEntry notify role w key silent)
  | .addChild key b => do
    let r ← build b.buildNode
    wrapper keep (some (← TreeM.addChild w key r))
  | .removeChild key => do bool (← TreeM.removeChild w key)
  | .unsubscribeAll => silently (TreeM.unsubscribeAll w)
  | .destroy => silently (TreeM.modifyForest (·.destroy w))
  | .printTree indent => do text (← TreeM.printTree w indent)
  | .clone => do wrapper keep (some (← TreeM.clone w))
  | .equals other => do
    let v ← handle other
    bool (← TreeM.equals w v)
  | .fromForm b => do
    let v ← build b.build
    let d ← TreeM.check (·.data v)
    let r ← TreeM.build (deserialize d .builtin)
    wrapper keep (some (← TreeM.wrap r none))
  | .setRegistry g => do
    TreeM.modifyForest (·.modifyWrapper w fun x => { x with registry := g })
    bool true
  | .emitChange path => silently (TreeM.emitChange notify w path)
  | .visit order steps stops => do
    let visitor : Visitor Session (List String) := fun seen c path => do
      let id := ((← TreeM.forest).nodeAt c).id
      let seen := seen ++ [Text.undotted path]
      runVisit id steps
      if stops.contains id then return .done seen else return .yield seen
    match order with
    | .parentsFirst => do texts (← TreeM.preOrder w [] visitor)
    | .childrenFirst => do texts (← TreeM.postOrder w [] visitor)
    | .byLevel => do texts (← TreeM.levelOrder w [] visitor)
  | .find t => do wrapper keep (← TreeM.find w (test t))
  | .findAll t => do wrappers (← TreeM.findAll w (test t))
  | .anyPasses t => do bool (← TreeM.find w (test t)).isSome
  | .allPass t => do bool (← TreeM.find w (test t.not)).isNone
  | .mapIds => do
    let found ← TreeM.entries w
    let f ← TreeM.forest
    return .list (found.map fun p => .list [.str (f.nodeAt p.1).id, .list (p.2.map .str)])
  | .foldIds start => do
    let found ← TreeM.entries w
    let f ← TreeM.forest
    text (found.foldl (fun acc p =>
      acc ++ (f.nodeAt p.1).id ++ "@" ++ toString p.2.length ++ ";") start)
  | .subscribe name filter times actions => do
    let l ← addListener ⟨name, actions, times⟩
    keepSubscription name w (← TreeM.subscribe w l filter)
  | .watch name path times actions => do
    let l ← addListener ⟨name, actions, times⟩
    keepSubscription name w (← TreeM.watch w l path)
  | .unsubscribe name => do
    let (v, n) ← subscription name
    silently (TreeM.unsubscribe v n)
  | .isActive name => do
    let (v, n) ← subscription name
    bool (← TreeM.isActive v n)
  | .subscriptionId name => do text (subscriptionText (← subscription name).2)
  | .batch steps => do
    modifySession fun x => { x with inner := some [] }
    TreeM.batch notify w (runBody steps)
    number steps.length
  | .transaction steps => do
    modifySession fun x => { x with inner := some [] }
    TreeM.transaction w (runBody steps)
    number steps.length
  | .isNode label field => do
    match (← session).labels.get? label with
    | none => throw .noHandle
    | some r =>
      let f ← TreeM.forest
      match field with
      | none => bool (decide ((f.wrapper w).node = r))
      | some field => bool (decide (heldNode? (f.nodeAt w) field = some r))
  | .putBehind role key b => do
    let r ← build b.buildNode
    silently (TreeM.modifyForest (·.modifyNodeAt w fun n =>
      n.withEntries role ((n.entries role).insert key r)))
  | .removeBehind role key => do
    let found := (((← TreeM.forest).nodeAt w).entries role).contains key
    TreeM.modifyForest (·.modifyNodeAt w fun n =>
      n.withEntries role ((n.entries role).erase key))
    bool found
  | .edit field inward edit => do
    let start := fieldOf ((← TreeM.forest).nodeAt w) field
    silently (editValue (← TreeM.check (inside · start inward)) edit)

end

end

section

variable [Host]

/-- What a script does when a listener is told, with so many notifications still possible inside
one another: the first few notifications of a listener set off its steps. -/
def notify : Nat → Notify Session
  | 0, _, _ => throw .endless
  | n + 1, id, paths => do
    match (← session).listeners[id]? with
    | none => return
    | some l =>
      match l.left with
      | 0 => keepEvent (.mk l.name paths none)
      | left + 1 => do
        modifySession fun x =>
          { x with listeners := x.listeners.setIfInBounds id { l with left } }
        let (records, result) ← enclosed (runBody (notify n) l.actions)
        keepEvent (.mk l.name paths (some records))
        if let .error e := result then throw e

/-- How far notifications may set off one another. -/
def notifyDepth : Nat := 1000

/-- Carries out the outermost steps of a script, with the form of a node after each if there is a
node to show. -/
def runScript (watched : Option NodeRef) :
    List Step → ScriptM (List (Record × Option Shown))
  | [] => return []
  | st :: rest => do
    let record ← runStep (notify notifyDepth) st
    let state ← watched.mapM fun r => TreeM.check (·.nodeForm r)
    return (record, state) :: (← runScript watched rest)

end

/-- What a script keeps at its start: the wrapper of the root, and what has been built. -/
def startSession (root : WrapperRef) (labels types : Entries NodeRef) : Session where
  handles := .ofList [("root", some root)]
  subscriptions := ∅
  listeners := #[]
  labels := labels
  types := types
  events := []
  inner := none

end ScriptM

end LiveTree
