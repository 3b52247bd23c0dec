import LiveTree.Fault
import LiveTree.Store

/-! The serialized form of a node: its id, the id of its type, and its value, default and maps as
far as there are any. Nodes inside values are serialized where they stand, and tuples become
lists. -/

namespace LiveTree.Store

variable {ν : Type} (s : Store)

/-- The form of a value, to a given depth. -/
def formTo : Nat → Value → Except Fault (Data ν)
  | 0, _ => .error .endless
  | n + 1, v =>
    match v with
    | .none => .ok .null
    | .bool b => .ok (.bool b)
    | .int i => .ok (.int i)
    | .float x => .ok (.float x)
    | .str t => .ok (.str t)
    | .list r => .list <$> (s.list r).mapM (formTo n)
    | .tuple r => .list <$> (s.tuple r).mapM (formTo n)
    | .dict r => .dict <$> (s.dict r).toList.mapM fun p => do return (p.1, ← formTo n p.2)
    | .node r => do
      let node := s.node r
      let part (name : String) (v : Value) : Except Fault (List (String × Data ν)) :=
        if v.isNone then .ok [] else do return [(name, ← formTo n v)]
      let value ← part "value" node.value
      let default ← part "defaultValue" node.default
      let maps ← Role.all.mapM fun role => do
        let entries := (node.entries role).toList
        if entries.isEmpty then return []
        else
          let forms ← entries.mapM fun p => do return (p.1, ← formTo n (.node p.2))
          return [(role.name, Data.dict forms)]
      let type : Data ν := .dict [("id", .str (s.node node.type).id)]
      return .dict ([("id", .str node.id), ("type", type)] ++ value ++ default ++ maps.flatten)

/-- The serialized form of a value. -/
def form (v : Value) : Except Fault (Data ν) := s.formTo s.depthBound v

/-- The serialized form of a node. -/
def nodeForm (r : NodeRef) : Except Fault (Data ν) := s.form (.node r)

end LiveTree.Store
