import LiveTree.Build.Make
import LiveTree.Form.Shape
import LiveTree.Value.Arithmetic

/-! Rebuilding nodes from their serialized form. A form names its type by id only, so types come
from a table: the built-in types, those that the caller gives, and a new one for each other id. -/

namespace LiveTree

/-- The types that are known by id. -/
abbrev TypeTable : Type := Entries NodeRef

namespace TypeTable

/-- The built-in types. -/
def builtin : TypeTable := .ofList Builtin.all

/-- The built-in types, with some types over them. -/
def withTypes (s : Store) (types : List NodeRef) : TypeTable :=
  builtin.insertAll (types.map fun r => ((s.node r).id, r))

end TypeTable

/-- Rebuilding adds to a store and to a table of types. -/
abbrev RebuildM : Type → Type := StateT TypeTable StoreM

namespace RebuildM

theorem get_bind {α : Type} (k : TypeTable → RebuildM α) (table : TypeTable) :
    (get >>= k) table = k table table := rfl

/-- The type with an id, made and kept if it is not known yet. -/
def typeNode (id : String) : RebuildM NodeRef := do
  match (← get).get? id with
  | some r => return r
  | none => do
    let r ← Make.type id
    modify fun table => table.insert id r
    return r

end RebuildM

namespace Payload

mutual

/-- Rebuilds a node from its parts. -/
def rebuild (value : Data NodeRef → RebuildM Value) : Payload NodeRef → RebuildM NodeRef
  | mk id typeId v d metadata constraints children => do
    let type ← RebuildM.typeNode typeId
    let v ← value v
    let d ← value d
    let metadata ← rebuildEntries value metadata
    let constraints ← rebuildEntries value constraints
    let children ← rebuildEntries value children
    Make.node id type
      { value := v, default := d, metadata := .ofList metadata,
        constraints := .ofList constraints, children := .ofList children }

/-- Rebuilds the nodes of a map. -/
def rebuildEntries (value : Data NodeRef → RebuildM Value) :
    List (String × Payload NodeRef) → RebuildM (List (String × NodeRef))
  | [] => return []
  | (k, p) :: rest => do
    let r ← rebuild value p
    return (k, r) :: (← rebuildEntries value rest)

end

/-- The parts of a node, or the fault that it has not the shape of one. -/
def orInvalid (d : Data NodeRef) : RebuildM (Payload NodeRef) :=
  match ofData d with
  | .ok p => pure p
  | .error issues => throw (Fault.invalid issues)

end Payload

namespace Data

/-- Rebuilds a value, to a given depth. Dictionaries that stand for nodes become nodes; tuples are
left as they are. -/
def rebuildTo : Nat → Data NodeRef → RebuildM Value
  | 0, _ => throw Fault.endless
  | n + 1, d =>
    match d with
    | .null => return .none
    | .bool b => return .bool b
    | .int i => return .int i
    | .float x => return .float x
    | .str t => return .str t
    | .leaf r => return .node r
    | .list items => do
      let vs ← items.mapM (rebuildTo n)
      StoreM.update (·.newList vs)
    | .tuple items => do
      let vs ← items.mapM (keepTo n)
      StoreM.update (·.newTuple vs)
    | .dict entries =>
      if d.standsForNode then do
        let p ← Payload.orInvalid d
        return .node (← p.rebuild (rebuildTo n))
      else do
        let vs ← entries.mapM fun p => do return (p.1, ← rebuildTo n p.2)
        StoreM.update (·.newDict (.ofList vs))
where
  /-- Makes a value of data as it is, nodes or not. -/
  keepTo : Nat → Data NodeRef → RebuildM Value
    | 0, _ => throw Fault.endless
    | n + 1, d =>
      match d with
      | .null => return .none
      | .bool b => return .bool b
      | .int i => return .int i
      | .float x => return .float x
      | .str t => return .str t
      | .leaf r => return .node r
      | .list items => do
        let vs ← items.mapM (keepTo n)
        StoreM.update (·.newList vs)
      | .tuple items => do
        let vs ← items.mapM (keepTo n)
        StoreM.update (·.newTuple vs)
      | .dict entries => do
        let vs ← entries.mapM fun p => do return (p.1, ← keepTo n p.2)
        StoreM.update (·.newDict (.ofList vs))

/-- Rebuilds a node from its serialized form. -/
def rebuildNode (d : Data NodeRef) : RebuildM NodeRef := do
  let p ← Payload.orInvalid d
  p.rebuild (rebuildTo (d.depth + 1))

end Data

/-- Rebuilds a node from its serialized form, with types from a table. -/
def deserialize (d : Data NodeRef) (types : TypeTable) : StoreM NodeRef := do
  let (r, _) ← d.rebuildNode.run types
  return r

end LiveTree
