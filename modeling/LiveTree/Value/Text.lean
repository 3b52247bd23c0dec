import LiveTree.Fault
import LiveTree.Number.Shortest
import LiveTree.Store
import LiveTree.Text.Digit

/-! The text of values. A text alone is its own text; everywhere else values are written out:
texts in quotes, lists in brackets, tuples in parentheses, dictionaries in braces, and nodes by
their id, type, value and the names in their maps. -/

namespace LiveTree

/-- The first natural that has no text, having too many digits. -/
def textBound : Nat := Nat.pow 10 Text.numberLength

/-- The text of an integer. -/
def intText (i : Int) : Except Fault String :=
  if i.natAbs < textBound then .ok (toString i) else .error .unreadableNumber

/-- The texts of a list of names in order, in brackets. -/
def sortedNames (names : List String) : String :=
  Text.quoteList (names.mergeSort fun a b => decide (a ≤ b))

/-- The parts of a tuple in parentheses. A single part is followed by a comma. -/
def parenthesized : List String → String
  | [part] => "(" ++ part ++ ",)"
  | parts => "(" ++ Text.joined ", " parts ++ ")"

namespace Store

variable (s : Store)

/-- A value written out. A list, tuple or dictionary inside itself is written as three dots. -/
def written : Nat → List Cell → Value → Except Fault String
  | 0, _, _ => .error .endless
  | n + 1, within, v =>
    match v with
    | .none => .ok "None"
    | .bool true => .ok "True"
    | .bool false => .ok "False"
    | .int i => intText i
    | .float x => .ok (Number.Layout.plain.text x)
    | .str t => .ok (Text.quote t)
    | .list r =>
      if within.contains (.list r) then .ok "[...]"
      else do
        let parts ← (s.list r).mapM (written n (.list r :: within))
        return "[" ++ Text.joined ", " parts ++ "]"
    | .tuple r =>
      if within.contains (.tuple r) then .ok "(...)"
      else do
        let parts ← (s.tuple r).mapM (written n (.tuple r :: within))
        return parenthesized parts
    | .dict r =>
      if within.contains (.dict r) then .ok "\x7b...\x7d"
      else do
        let parts ← (s.dict r).toList.mapM fun p => do
          return Text.quote p.1 ++ ": " ++ (← written n (.dict r :: within) p.2)
        return "\x7b" ++ Text.joined ", " parts ++ "\x7d"
    | .node r => do
      let node := s.node r
      let value ← if node.value.isNone then pure [] else do
        pure ["value=" ++ (← written n within node.value)]
      let maps := Role.all.filterMap fun role =>
        let entries := node.entries role
        if entries.isEmpty then none else some (role.name ++ "=" ++ sortedNames entries.keys)
      return "Node(" ++ Text.joined ", " (["id=" ++ Text.quote node.id,
        "type=" ++ Text.quote (s.node node.type).id] ++ value ++ maps) ++ ")"

/-- A value written out. -/
def writtenValue (v : Value) : Except Fault String := s.written s.depthBound [] v

/-- The text of a value. -/
def valueText : Value → Except Fault String
  | .str t => .ok t
  | v => s.writtenValue v

end Store

end LiveTree
