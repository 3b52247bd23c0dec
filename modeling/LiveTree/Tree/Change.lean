import LiveTree.Form.Clone
import LiveTree.Tree.Listen
import LiveTree.Tree.Visit

/-! Changing a tree: values, metadata, constraints and children, and transactions. All but the
changes of children are announced. -/

namespace LiveTree

namespace TreeM

variable {σ α : Type} (notify : Notify σ)

/-- An operation that adds to the store. -/
def build (m : StoreM α) : TreeM σ α := fun x =>
  match m.run x.forest.store with
  | .ok a s => .ok a { x with forest := { x.forest with store := s } }
  | .error e s => .error e { x with forest := { x.forest with store := s } }

/-- Sets the value of the node that a path leads to, if it leads to one. The change is announced
where it was asked for. -/
def setValue (w : WrapperRef) (v : Value) (path : Path) (silent : Bool) : TreeM σ Unit := do
  checkAlive w
  match ← descend w path with
  | none => return
  | some target => do
    modifyForest (·.modifyNodeAt target fun n => { n with value := v })
    emitUnless notify silent w path

/-- Whether a node has a default. -/
def hasDefault (w : WrapperRef) : TreeM σ Bool := do
  return !((← forest).nodeAt w).default.isNone

/-- Sets the value to a copy of the default, if there is one. -/
def reset (w : WrapperRef) (silent : Bool) : TreeM σ Unit := do
  checkAlive w
  if ← hasDefault w then
    let v ← build (copyValue ((← forest).nodeAt w).default)
    setValue notify w v [] silent

/-- Resets a whole subtree without announcing each change, and then announces all of them. -/
def resetDeep (w : WrapperRef) (silent : Bool) : TreeM σ Unit := do
  checkAlive w
  let changed ← preOrder w [] fun changed c path => do
    if ← hasDefault c then
      reset notify c true
      return .yield (changed ++ [path])
    else return .yield changed
  unless changed.isEmpty || silent do emit notify w changed

/-- Puts an entry into the metadata or constraints. -/
def setEntry (role : Role) (w : WrapperRef) (key : String) (r : NodeRef) (silent : Bool) :
    TreeM σ Unit := do
  checkAlive w
  modifyForest (·.modifyNodeAt w fun n => n.withEntries role ((n.entries role).insert key r))
  emitUnless notify silent w [role.name, key]

/-- Removes an entry from the metadata or constraints. The answer is whether it was there. -/
def removeEntry (role : Role) (w : WrapperRef) (key : String) (silent : Bool) : TreeM σ Bool := do
  checkAlive w
  if (((← forest).nodeAt w).entries role).contains key then
    modifyForest (·.modifyNodeAt w fun n => n.withEntries role ((n.entries role).erase key))
    emitUnless notify silent w [role.name, key]
    return true
  else return false

/-- Adds or replaces a child; the answer is its new wrapper. -/
def addChild (w : WrapperRef) (key : String) (r : NodeRef) : TreeM σ WrapperRef := do
  checkAlive w
  updateForest fun f =>
    let f := f.modifyNodeAt w fun n => { n with children := n.children.insert key r }
    (f.dropCached w key).wrapChild w key r

/-- Removes a child and destroys its wrapper. The answer is whether it was there. -/
def removeChild (w : WrapperRef) (key : String) : TreeM σ Bool := do
  checkAlive w
  if ((← forest).nodeAt w).children.contains key then
    modifyForest fun f =>
      (f.modifyNodeAt w fun n => { n with children := n.children.erase key }).dropCached w key
    return true
  else return false

end TreeM

/-! ### Transactions -/

/-- Nodes with what they held. -/
abbrev Saved : Type := List (NodeRef × Node)

namespace Store

variable (s : Store)

/-- The number of entries of all maps. A search that follows each of them once ends by then. -/
def linkCount : Nat :=
  s.nodes.foldl (fun n x => n + x.metadata.size + x.constraints.size + x.children.size) 0

/-- The nodes that are held directly, last first. -/
def heldLast (r : NodeRef) : List NodeRef :=
  let n := s.node r
  (n.metadata.values ++ n.constraints.values ++ n.children.values).reverse

/-- Collects the nodes that can be reached from some, each once, in so many steps. -/
def reachTo : Nat → List NodeRef → List NodeRef → List NodeRef
  | 0, seen, _ => seen
  | _, seen, [] => seen
  | n + 1, seen, r :: rest =>
    if seen.contains r then reachTo n seen rest
    else reachTo n (seen ++ [r]) (s.heldLast r ++ rest)

/-- The nodes that can be reached from a node through the three maps, each once. -/
def reachable (r : NodeRef) : List NodeRef := s.reachTo (s.linkCount + 2) [] [r]

/-- Puts nodes back as they were saved. -/
def restore (saved : Saved) : Store := saved.foldl (fun s p => s.setNode p.1 p.2) s

end Store

/-- A node as it is, with copies of its value and default. -/
def savedNode (r : NodeRef) : StoreM (NodeRef × Node) := do
  let node := (← get).node r
  let value ← copyValue node.value
  let default ← copyValue node.default
  return (r, { node with value, default })

/-- Saves all nodes that can be reached from a node. -/
def capture (r : NodeRef) : StoreM Saved := do ((← get).reachable r).mapM savedNode

namespace TreeM

variable {σ α : Type}

/-- Runs a body; if it fails, all nodes that could be reached before are put back as they were,
and the failure is passed on. -/
def transaction (w : WrapperRef) (body : TreeM σ α) : TreeM σ α := do
  checkAlive w
  let saved ← build (capture ((← forest).wrapper w).node)
  tryCatch body fun e => do
    modifyForest fun f => (f.modifyStore (·.restore saved)).syncCache w
    throw e

end TreeM

end LiveTree
