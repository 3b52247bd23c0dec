import LiveTree.Eval.Context
import LiveTree.Text.Blank
import LiveTree.Text.Case
import LiveTree.Value.Arithmetic
import LiveTree.Value.Text

/-! The standard operators. An operand that is not there reads as absent; arithmetic takes an absent
number as zero, text operators take what is not a text as empty, and a comparison of values that
do not compare is false. -/

namespace LiveTree

/-- An absent number is zero. -/
def Value.orZero : Value → Value
  | .none => .int 0
  | v => v

/-- The text or the empty one. -/
def Value.textOrEmpty (v : Value) : String := v.asText?.getD ""

/-- The elements of a list or tuple; anything else has none. -/
def Store.elements (s : Store) : Value → List Value
  | .list r => s.list r
  | .tuple r => s.tuple r
  | _ => []

/-- The text of a value, empty for the absent one. -/
def Store.shownText (s : Store) : Value → Except Fault String
  | .none => .ok ""
  | v => s.valueText v

/-- Whether one list of characters occurs in another. -/
def occursIn (part : List Char) : List Char → Bool
  | [] => part.isEmpty
  | c :: cs => part.isPrefixOf (c :: cs) || occursIn part cs

/-- A comparison that is not defined is false. -/
def lenient : Except Fault Bool → Except Fault Bool
  | .error .unsupportedOperands => .ok false
  | r => r

namespace StandardOp

section

variable (eval : Evaluator) (c : Context) (args : List NodeRef)

/-- The value of an argument, absent if there is no such argument. -/
def argument (i : Nat) : EvalM Value :=
  match args[i]? with
  | some r => eval c r
  | none => pure .none

/-- An argument that has to be there. -/
def body (i : Nat) : EvalM NodeRef :=
  match args[i]? with
  | some r => pure r
  | none => .fail .absentElement

/-- An arithmetic operation on the first two arguments. -/
def arithmetic (f : Store → Value → Value → Except Fault (Value × Store)) : EvalM Value := do
  let a ← argument eval c args 0
  let b ← argument eval c args 1
  EvalM.attempt fun s => f s a.orZero b.orZero

/-- The quotient of the first two arguments. A divisor that counts as false gives zero. -/
def quotient : EvalM Value := do
  let a ← argument eval c args 0
  let b ← argument eval c args 1
  if ← EvalM.read (·.truthy b) then EvalM.attempt fun s => s.divide a.orZero b
  else return .int 0

/-- A comparison of the first two arguments. -/
def comparison (f : Store → Value → Value → Except Fault Bool) : EvalM Value := do
  let a ← argument eval c args 0
  let b ← argument eval c args 1
  return .bool (← EvalM.check fun s => lenient (f s a b))

/-- Whether all arguments count as true, up to the first that does not. -/
def conjunction : List NodeRef → EvalM Value
  | [] => return .bool true
  | r :: rest => do
    let v ← eval c r
    if ← EvalM.read (·.truthy v) then conjunction rest else return .bool false

/-- Whether some argument counts as true, up to the first that does. -/
def disjunction : List NodeRef → EvalM Value
  | [] => return .bool false
  | r :: rest => do
    let v ← eval c r
    if ← EvalM.read (·.truthy v) then return .bool true else disjunction rest

/-- A function of the first argument. -/
def ofFirst (f : Store → Value → Except Fault Value) : EvalM Value := do
  let v ← argument eval c args 0
  EvalM.check (f · v)

/-- A function of the characters of the first argument. -/
def ofText (f : List Char → List Char) : EvalM Value :=
  ofFirst eval c args fun _ v => .ok (.str (String.ofList (f v.textOrEmpty.toList)))

/-- The elements of the first argument. -/
def collection : EvalM (List Value) := do
  let v ← argument eval c args 0
  EvalM.read (·.elements v)

/-- Runs `f` on each value with its index. -/
def eachIndexed {α : Type} (f : Nat → Value → EvalM α) (i : Nat) : List Value → EvalM (List α)
  | [] => return []
  | v :: rest => do
    let a ← f i v
    return a :: (← eachIndexed f (i + 1) rest)

/-- The value of the body for each element of a collection. -/
def mapped : EvalM Value := do
  let items ← collection eval c args
  let r ← body args 1
  let values ← eachIndexed (fun i v =>
    eval (c.withBindings (.ofList [("item", v), ("index", .int i)])) r) 0 items
  EvalM.update (·.newList values)

/-- The elements of a collection for which the body counts as true. -/
def filtered : EvalM Value := do
  let items ← collection eval c args
  let r ← body args 1
  let kept ← eachIndexed (fun i v => do
    let result ← eval (c.withBindings (.ofList [("item", v), ("index", .int i)])) r
    return if ← EvalM.read (·.truthy result) then [v] else []) 0 items
  EvalM.update (·.newList kept.flatten)

/-- The value of the body for each element in turn, with the value before it as `acc`. -/
def folded (r : NodeRef) (acc : Value) (i : Nat) : List Value → EvalM Value
  | [] => return acc
  | v :: rest => do
    let acc ← eval (c.withBindings (.ofList [("acc", acc), ("item", v), ("index", .int i)])) r
    folded r acc (i + 1) rest

/-- Folds the elements of a collection by the body, from the third argument. -/
def reduced : EvalM Value := do
  let items ← collection eval c args
  let r ← body args 1
  let acc ← argument eval c args 2
  folded eval c r acc 0 items

/-- What an operator gives for its arguments. -/
def apply : StandardOp → EvalM Value
  | add => arithmetic eval c args Store.add
  | sub => arithmetic eval c args Store.subtract
  | mul => arithmetic eval c args Store.multiply
  | div => quotient eval c args
  | eq => comparison eval c args Store.equal
  | neq => comparison eval c args fun s a b => (!·) <$> s.equal a b
  | lt => comparison eval c args (Store.order · .lt)
  | lte => comparison eval c args (Store.order · .le)
  | gt => comparison eval c args (Store.order · .gt)
  | gte => comparison eval c args (Store.order · .ge)
  | and => conjunction eval c args
  | or => disjunction eval c args
  | not => ofFirst eval c args fun s v => .ok (.bool (!s.truthy v))
  | choose => do
    let condition ← argument eval c args 0
    if ← EvalM.read (·.truthy condition) then argument eval c args 1 else argument eval c args 2
  | concat => do
    let values ← eval.all c args
    let texts ← EvalM.check fun s => values.mapM s.shownText
    return .str (Text.joined "" texts)
  | toText => ofFirst eval c args fun s v => Value.str <$> s.shownText v
  | textLength => ofFirst eval c args fun _ v => .ok (.int (v.textOrEmpty.length : Nat))
  | includes => do
    let text ← argument eval c args 0
    let part ← argument eval c args 1
    return .bool <| match text, part with
      | .str t, .str p => occursIn p.toList t.toList
      | _, _ => false
  | upper => ofText eval c args Text.upper
  | lower => ofText eval c args Text.lower
  | trim => ofText eval c args Text.strip
  | isNotNull => ofFirst eval c args fun _ v => .ok (.bool (!v.isNone))
  | isNotBlank => ofFirst eval c args fun _ v =>
    .ok (.bool (!(Text.strip v.textOrEmpty.toList).isEmpty))
  | map => mapped eval c args
  | filter => filtered eval c args
  | reduce => reduced eval c args

end

end StandardOp

end LiveTree
