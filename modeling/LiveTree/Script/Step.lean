import LiveTree.Build.Blueprint
import LiveTree.Tree.Read

/-! Scripts: steps that are carried out on trees through named wrappers. What a step needs is
described by blueprints and made when the step is carried out. -/

namespace LiveTree

/-- A test of a wrapper. -/
inductive NodeTest where
  | all
  | none
  | leaf
  | hasValue
  | id (id : String)
  | idStart (start : String)
  | type (id : String)
  | depth (n : Int)
  | not (t : NodeTest)
  deriving Inhabited

/-- The order of a visit. -/
inductive VisitOrder where
  | parentsFirst
  | childrenFirst
  | byLevel
  deriving DecidableEq, Inhabited, Repr

/-- What can be asked of a wrapper without arguments. -/
inductive Query where
  | id | type | describe | path | pathString | depth | isRoot | isDestroyed
  | parent | root | next | previous | ancestors | siblings | descendants | children | every
  | childKeys | childCount | hasChildren | count
  | rawValue | defaultValue | hasDefault | hasValue | isEmpty
  | metadataKeys | constraintKeys | subscriptionCount | registry | form
  | validate | validateDeep | snapshot
  deriving DecidableEq, Inhabited, Repr

/-- What can be asked of a wrapper with a key. -/
inductive KeyQuery where
  | child | findById | findByType
  | metadata | constraint | rawMetadata | rawConstraint | hasMetadata | hasConstraint
  deriving DecidableEq, Inhabited, Repr

/-- One of the two values that a node holds. -/
inductive ValueField where
  | value
  | default
  deriving DecidableEq, Inhabited, Repr

/-- A position in a list or the key of an entry of a dictionary. -/
inductive Inward where
  | index (i : Int)
  | key (k : String)
  deriving Inhabited

/-- A change of a list or dictionary in place. -/
inductive Edit where
  | append (v : Blueprint)
  | put (place : Inward) (v : Blueprint)
  deriving Inhabited

/-- The name of the wrapper that something is done on, and the name under which the result is
kept. -/
structure Target where
  on : String
  keep : Option String
  deriving Inhabited

mutual

/-- What a step does. Giving up and comparing two names need no wrapper to be there. -/
inductive Act where
  | abort (message : String)
  | sameWrapper (a b : String)
  | at (target : Target) (deed : Deed)

/-- What is done on a wrapper. The steps inside a deed come with whether their failures are
caught. -/
inductive Deed where
  | ask (q : Query)
  | askKey (q : KeyQuery) (key : String)
  | hasAny (role : Role)
  | descend (path : Path)
  | getValue (path : Path)
  | setValue (v : Blueprint) (path : Path) (silent : Bool)
  | reset (silent : Bool)
  | resetDeep (silent : Bool)
  | setEntry (role : Role) (key : String) (node : Blueprint) (silent : Bool)
  | removeEntry (role : Role) (key : String) (silent : Bool)
  | addChild (key : String) (node : Blueprint)
  | removeChild (key : String)
  | unsubscribeAll
  | destroy
  | printTree (indent : Int)
  | clone
  | equals (other : String)
  | fromForm (data : Blueprint)
  | setRegistry (registry : Option Registry)
  | emitChange (path : Path)
  | visit (order : VisitOrder) (steps : List (String × List (Bool × Act))) (stops : List String)
  | find (test : NodeTest)
  | findAll (test : NodeTest)
  | anyPasses (test : NodeTest)
  | allPass (test : NodeTest)
  | mapIds
  | foldIds (start : String)
  | subscribe (name : String) (filter : Option PathFilter) (times : Nat)
    (actions : List (Bool × Act))
  | watch (name : String) (path : Path) (times : Nat) (actions : List (Bool × Act))
  | unsubscribe (name : String)
  | isActive (name : String)
  | subscriptionId (name : String)
  | batch (steps : List (Bool × Act))
  | transaction (steps : List (Bool × Act))
  | isNode (label : String) (field : Option String)
  | putBehind (role : Role) (key : String) (node : Blueprint)
  | removeBehind (role : Role) (key : String)
  | edit (field : ValueField) (inward : List Inward) (edit : Edit)

end

instance : Inhabited Act := ⟨.abort ""⟩

instance : Inhabited Deed := ⟨.unsubscribeAll⟩

/-- A step of a script: whether its failure is caught, so that it does not end the steps around it,
and what it does. -/
abbrev Step : Type := Bool × Act

/-- What is shown of a node or wrapper inside an answer. -/
inductive Leaf where
  | node (form : Data Empty)
  | wrapper (description : String)
  deriving Inhabited

/-- An answer. -/
abbrev Shown : Type := Data Leaf

mutual

/-- What came of a step: its answer or failure, the notifications during it, the values noted
during it, and what came of the steps inside it. -/
inductive Record where
  | mk (result : Except Fault Shown) (events : List Event) (noted : List Shown)
    (steps : Option (List Record))

/-- A notification: who was told of which paths, and what came of the steps that this set off. -/
inductive Event where
  | mk (name : String) (paths : List String) (steps : Option (List Record))

end

instance : Inhabited Record := ⟨.mk (.ok .null) [] [] none⟩

instance : Inhabited Event := ⟨.mk "" [] none⟩

/-- A listener of a script: its name, the steps that a notification sets off, and how many more
notifications do so. -/
structure Listener where
  name : String
  actions : List Step
  left : Nat
  deriving Inhabited

/-- What a script keeps besides the forest. -/
structure Session where
  handles : Entries (Option WrapperRef)
  subscriptions : Entries (WrapperRef × Nat)
  listeners : Array Listener
  labels : Entries NodeRef
  types : Entries NodeRef
  /-- The notifications during the current step. -/
  events : List Event
  /-- What came of the steps inside the current step. -/
  inner : Option (List Record)
  deriving Inhabited

end LiveTree
