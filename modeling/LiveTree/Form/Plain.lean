import LiveTree.Form.Encode

/-! Values as plain data, which keeps how they look at one moment: later changes of the store do
not reach it. -/

namespace LiveTree.Store

variable {ν : Type} (s : Store)

/-- A value as plain data, to a given depth, with a reading of its nodes. -/
def dataTo (leaf : NodeRef → Except Fault (Data ν)) : Nat → Value → Except Fault (Data ν)
  | 0, _ => .error .endless
  | n + 1, v =>
    match v with
    | .none => .ok .null
    | .bool b => .ok (.bool b)
    | .int i => .ok (.int i)
    | .float x => .ok (.float x)
    | .str t => .ok (.str t)
    | .list r => .list <$> (s.list r).mapM (dataTo leaf n)
    | .tuple r => .tuple <$> (s.tuple r).mapM (dataTo leaf n)
    | .dict r => .dict <$> (s.dict r).toList.mapM fun p => do return (p.1, ← dataTo leaf n p.2)
    | .node r => leaf r

/-- A value as plain data, with a reading of its nodes. -/
def dataWith (leaf : NodeRef → Except Fault (Data ν)) (v : Value) : Except Fault (Data ν) :=
  s.dataTo leaf s.depthBound v

/-- A value as plain data over its nodes. -/
def data (v : Value) : Except Fault (Data NodeRef) := s.dataWith (fun r => .ok (.leaf r)) v

/-- A value as plain data over the forms of its nodes. -/
def picture (v : Value) : Except Fault (Data (Data Empty)) :=
  s.dataWith (fun r => Data.leaf <$> s.nodeForm r) v

/-- Notes how a value looks. -/
def note (v : Value) : Except Fault Store := do
  return { s with journal := (← s.picture v) :: s.journal }

end LiveTree.Store
