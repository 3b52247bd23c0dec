import LiveTree.Eval.Context
import LiveTree.Text.Digit

/-! The arguments of an operator expression: its children `arg0`, `arg1`, .. in the order of their
numbers. The order of the keys is worked out when the expression is first evaluated and kept. -/

namespace LiveTree

/-- The characters after a first text, if it is one. -/
def afterStart : List Char → List Char → Option (List Char)
  | [], cs => some cs
  | _ :: _, [] => none
  | p :: ps, c :: cs => if p = c then afterStart ps cs else none

/-- What the key of every argument starts with. -/
def argumentStart : List Char := ['a', 'r', 'g']

/-- The number of an argument key. -/
def argumentNumber (key : String) : Except Fault Nat :=
  match afterStart argumentStart key.toList with
  | none => .error (.badArgumentKey key)
  | some digits =>
    if digits.isEmpty || !digits.all Text.isDigit then .error (.badArgumentKey key)
    else match Text.readNat? digits with
    | some n => .ok n
    | none => .error .unreadableNumber

/-- The keys in the order of their numbers, those with one number in the order they came. -/
def argumentOrder (keys : List String) : Except Fault (List String) := do
  let numbered ← keys.mapM fun key => do return (← argumentNumber key, key)
  return (numbered.mergeSort fun a b => decide (a.1 ≤ b.1)).map Prod.snd

/-- The arguments present under some keys. -/
def Node.arguments (n : Node) (keys : List String) : List NodeRef := keys.filterMap n.children.get?

/-- The arguments of an operator expression, by the kept order if there is one. -/
def orderedArguments (r : NodeRef) : EvalM (List NodeRef) := do
  let node ← EvalM.read (·.node r)
  match ← EvalM.read (·.argOrder r) with
  | some keys => return node.arguments keys
  | none => do
    let keys ← EvalM.ofExcept (argumentOrder node.children.keys)
    EvalM.modify (·.setArgOrder r keys)
    return node.arguments keys

end LiveTree
