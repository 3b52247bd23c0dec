import LiveTree.Build.Make
import LiveTree.Value.Arithmetic

/-! Copies of nodes and values. Nodes, lists and dictionaries are made anew all the way down;
types and tuples are shared with the copy. -/

namespace LiveTree

/-- The copy of a value, to a given depth. -/
def copyTo : Nat → Value → StoreM Value
  | 0, _ => throw .endless
  | n + 1, v =>
    match v with
    | .list r => do
      let vs ← ((← get).list r).mapM (copyTo n)
      StoreM.update (·.newList vs)
    | .dict r => do
      let vs ← ((← get).dict r).toList.mapM fun p => do return (p.1, ← copyTo n p.2)
      StoreM.update (·.newDict (.ofList vs))
    | .node r => do
      let node := (← get).node r
      let value ← copyTo n node.value
      let default ← copyTo n node.default
      let copyEntries (role : Role) : StoreM (Entries NodeRef) := do
        let copies ← (node.entries role).toList.mapM fun p => do
          return (p.1, (← copyTo n (.node p.2)).asNode?.getD p.2)
        return .ofList copies
      let metadata ← copyEntries .metadata
      let constraints ← copyEntries .constraints
      let children ← copyEntries .children
      return .node (← Make.node node.id node.type
        { value, default, metadata, constraints, children })
    | v => return v

/-- A copy of a value. -/
def copyValue (v : Value) : StoreM Value := do copyTo (← get).depthBound v

/-- A copy of a node. -/
def copyNode (r : NodeRef) : StoreM NodeRef := do
  return (← copyValue (.node r)).asNode?.getD r

end LiveTree
