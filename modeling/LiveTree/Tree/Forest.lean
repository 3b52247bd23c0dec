import LiveTree.Eval.Context

/-! Wrappers around nodes. A wrapper knows its parent and the key it was reached by, keeps the
wrappers of its children as they are first asked for, and holds the subscriptions to changes at
or below its node. A forest is a store with the wrappers that have been made on it; a wrapper is
always made after its parent. -/

namespace LiveTree

/-- The place of a wrapper in a forest. -/
structure WrapperRef where
  index : Nat
  deriving DecidableEq, Inhabited, Repr

/-- Keys from a node down to another. -/
abbrev Path : Type := List String

/-- Which of the changed paths a subscriber is told. -/
inductive PathFilter where
  /-- A path and everything below it; the empty path for everything. -/
  | within (path : String)
  /-- Any of some paths and everything below them. -/
  | withinAny (paths : List String)
  /-- The paths that a test accepts. -/
  | satisfying (test : String → Bool)
  deriving Inhabited

/-- One subscription: its number on its wrapper, whom to tell, and of what. -/
structure Subscriber where
  number : Nat
  listener : Nat
  filter : Option PathFilter
  deriving Inhabited

/-- A wrapper. -/
structure Wrapper where
  node : NodeRef
  registry : Option Registry
  parent : Option WrapperRef
  /-- The key under which the parent was asked for this wrapper. -/
  key : Option String
  /-- The wrappers of children that have been asked for. -/
  cache : Entries WrapperRef
  subscribers : List Subscriber
  /-- How many subscriptions have been handed out. -/
  issued : Nat
  /-- The changes collected so far while notifications are held back. -/
  batched : Option (List Path)
  destroyed : Bool
  deriving Inhabited

/-- The wrapper of a node, without parent. -/
def Wrapper.ofNode (node : NodeRef) (registry : Option Registry) : Wrapper where
  node := node
  registry := registry
  parent := none
  key := none
  cache := ∅
  subscribers := []
  issued := 0
  batched := none
  destroyed := false

/-- A store and the wrappers on it. -/
structure Forest where
  store : Store
  wrappers : Array Wrapper
  deriving Inhabited

namespace Forest

variable (f : Forest)

/-- The wrapper at a reference. -/
def wrapper (w : WrapperRef) : Wrapper := f.wrappers.getD w.index default

/-- The node of a wrapper. -/
def nodeAt (w : WrapperRef) : Node := f.store.node (f.wrapper w).node

/-- The type of a wrapper's node. -/
def typeAt (w : WrapperRef) : Node := f.store.node (f.nodeAt w).type

/-- Adds a wrapper. -/
def allocWrapper (x : Wrapper) : WrapperRef × Forest :=
  (⟨f.wrappers.size⟩, { f with wrappers := f.wrappers.push x })

/-- Changes a wrapper. -/
def modifyWrapper (w : WrapperRef) (g : Wrapper → Wrapper) : Forest :=
  { f with wrappers := f.wrappers.setIfInBounds w.index (g (f.wrapper w)) }

/-- Changes the store. -/
def modifyStore (g : Store → Store) : Forest := { f with store := g f.store }

/-- Changes the node of a wrapper. -/
def modifyNodeAt (w : WrapperRef) (g : Node → Node) : Forest :=
  f.modifyStore (·.modifyNode (f.wrapper w).node g)

/-! ### Up the tree -/

/-- So many ancestors of a wrapper, nearest first. -/
def ancestorsTo : Nat → WrapperRef → List WrapperRef
  | 0, _ => []
  | n + 1, w =>
    match (f.wrapper w).parent with
    | none => []
    | some p => p :: ancestorsTo n p

/-- The ancestors of a wrapper, nearest first. A parent was made before its child, so there are
no more of them than wrappers before this one. -/
def ancestors (w : WrapperRef) : List WrapperRef := f.ancestorsTo w.index w

/-- The topmost ancestor, the wrapper itself if it has none. -/
def root (w : WrapperRef) : WrapperRef := (f.ancestors w).getLast?.getD w

/-- The key under which the parent's node still holds the wrapper's node. -/
def keyInParent (w : WrapperRef) : Option String := do
  let x := f.wrapper w
  let p ← x.parent
  let key ← x.key
  if (f.nodeAt p).children.get? key = some x.node then some key else none

/-- The keys from the root to a wrapper, without those of wrappers that no longer stand under
their parents. -/
def path (w : WrapperRef) : Path := ((w :: f.ancestors w).filterMap f.keyInParent).reverse

/-- The registry of a wrapper or of its nearest ancestor that has one. -/
def registry (w : WrapperRef) : Option Registry :=
  (w :: f.ancestors w).findSome? fun a => (f.wrapper a).registry

/-- How parents are found for an evaluation at a wrapper: its ancestors know theirs, and other
nodes are searched for from the root. -/
def lookup (w : WrapperRef) (root : NodeRef) : Lookup where
  known := (w :: f.ancestors w).map fun a =>
    ((f.wrapper a).node, (f.wrapper a).parent.map fun p => (f.wrapper p).node)
  root := some root

/-! ### Down the tree -/

/-- Detaches a wrapper and the wrappers it keeps, to a given depth. -/
def destroyTo : Nat → WrapperRef → Forest → Forest
  | 0, _, f => f
  | n + 1, w, f =>
    let below := (f.wrapper w).cache.values.foldl (fun f c => destroyTo n c f) f
    below.modifyWrapper w fun x =>
      { x with cache := ∅, subscribers := [], parent := none, destroyed := true }

/-- Detaches a wrapper and all wrappers that it keeps. Their nodes stay as they are. -/
def destroy (w : WrapperRef) : Forest := destroyTo f.wrappers.size w f

/-- Forgets the kept wrapper of a child and destroys it. -/
def dropCached (w : WrapperRef) (key : String) : Forest :=
  match (f.wrapper w).cache.get? key with
  | none => f
  | some c => (f.modifyWrapper w fun x => { x with cache := x.cache.erase key }).destroy c

/-- Makes and keeps the wrapper of a child. -/
def wrapChild (w : WrapperRef) (key : String) (node : NodeRef) : WrapperRef × Forest :=
  let (c, f) := f.allocWrapper { Wrapper.ofNode node none with parent := some w, key := some key }
  (c, f.modifyWrapper w fun x => { x with cache := x.cache.insert key c })

/-- The wrapper of a child, the kept one as long as it wraps the node that is there now. -/
def child (w : WrapperRef) (key : String) : Option WrapperRef × Forest :=
  match (f.nodeAt w).children.get? key with
  | none => (none, f)
  | some node =>
    let fresh :=
      let (c, f) := (f.dropCached w key).wrapChild w key node
      (some c, f)
    match (f.wrapper w).cache.get? key with
    | some c => if (f.wrapper c).node = node then (some c, f) else fresh
    | none => fresh

/-- The wrapper that a path leads to. -/
def descend (f : Forest) (w : WrapperRef) : Path → Option WrapperRef × Forest
  | [] => (some w, f)
  | key :: rest =>
    match f.child w key with
    | (none, f) => (none, f)
    | (some c, f) => f.descend c rest

/-- The wrappers of the children under some keys. -/
def childrenAt (f : Forest) (w : WrapperRef) : List String → List WrapperRef × Forest
  | [] => ([], f)
  | key :: rest =>
    let (c, f) := f.child w key
    let (cs, f) := f.childrenAt w rest
    (c.toList ++ cs, f)

/-- The wrappers of the children, in order. -/
def children (w : WrapperRef) : List WrapperRef × Forest :=
  f.childrenAt w (f.nodeAt w).children.keys

/-- The wrappers of the other children of the parent. -/
def siblings (w : WrapperRef) : List WrapperRef × Forest :=
  match (f.wrapper w).parent with
  | none => ([], f)
  | some p =>
    let (cs, f) := f.children p
    (cs.filter (· ≠ w), f)

/-- The name after the first that is `k`. -/
def following (k : String) : List String → Option String
  | [] => none
  | a :: rest => if a = k then rest.head? else following k rest

/-- The wrapper of the child of the parent that `next` gives for the wrapper's own key. -/
def siblingBy (next : String → List String → Option String) (w : WrapperRef) :
    Option WrapperRef × Forest :=
  match (f.wrapper w).parent, f.keyInParent w with
  | some p, some key =>
    match next key (f.nodeAt p).children.keys with
    | some k => f.child p k
    | none => (none, f)
  | _, _ => (none, f)

/-- The next child of the parent. -/
def nextSibling (w : WrapperRef) : Option WrapperRef × Forest := f.siblingBy following w

/-- The previous child of the parent. -/
def previousSibling (w : WrapperRef) : Option WrapperRef × Forest :=
  f.siblingBy (fun k keys => following k keys.reverse) w

/-- Forgets the kept wrappers whose nodes have moved, to a given depth. -/
def syncCacheTo : Nat → WrapperRef → Forest → Forest
  | 0, _, f => f
  | n + 1, w, f =>
    (f.wrapper w).cache.toList.foldl (fun f (key, c) =>
      if (f.nodeAt w).children.get? key = some (f.wrapper c).node then syncCacheTo n c f
      else f.dropCached w key) f

/-- Forgets all kept wrappers at and below a wrapper whose nodes have moved. -/
def syncCache (w : WrapperRef) : Forest := syncCacheTo f.wrappers.size w f

end Forest

/-- A forest together with what a program that uses it keeps for itself. -/
structure World (σ : Type) where
  forest : Forest
  user : σ
  deriving Inhabited

/-- An operation on trees. What has been done when it fails stays done. -/
abbrev TreeM (σ : Type) : Type → Type := EStateM Fault (World σ)

namespace TreeM

variable {σ α : Type}

/-- The forest as it is. -/
def forest : TreeM σ Forest := World.forest <$> get

theorem forest_bind {β : Type} (k : Forest → TreeM σ β) (x : World σ) :
    (forest >>= k) x = k x.forest x := rfl

/-- Changes the forest. -/
def modifyForest (g : Forest → Forest) : TreeM σ Unit :=
  modify fun x => { x with forest := g x.forest }

/-- Changes the forest with a result. -/
def updateForest (g : Forest → α × Forest) : TreeM σ α :=
  modifyGet fun x =>
    let (a, f) := g x.forest
    (a, { x with forest := f })

/-- Reads off the store, or fails. -/
def check (g : Store → Except Fault α) : TreeM σ α := do
  match g (← forest).store with
  | .ok a => return a
  | .error e => throw e

/-- A computation on the store, run to its end. -/
def eval (m : EvalM α) : TreeM σ α := fun x =>
  match m.run x.forest.store with
  | (.ok a, s) => .ok a { x with forest := { x.forest with store := s } }
  | (.error e, s) => .error e { x with forest := { x.forest with store := s } }

/-- Fails on a wrapper that has been destroyed. -/
def checkAlive (w : WrapperRef) : TreeM σ Unit := do
  let f ← forest
  if (f.wrapper w).destroyed then throw (.destroyed (f.nodeAt w).id)

theorem checkAlive_of_live {w : WrapperRef} {x : World σ}
    (h : (x.forest.wrapper w).destroyed = false) : checkAlive w x = .ok () x := by
  rw [checkAlive, forest_bind, h]
  rfl

/-- The wrapper that a path leads to. -/
def descend (w : WrapperRef) (path : Path) : TreeM σ (Option WrapperRef) :=
  updateForest (·.descend w path)

end TreeM

end LiveTree
