import LiveTree.Number.Rounding
import LiveTree.Value.Order

/-! Sums, differences, products and quotients of values. Numbers are added and multiplied, sequences
of one sort are joined, and a sequence is repeated by an integer. An integer meets a floating-point
number as the nearest one. -/

namespace LiveTree

namespace Number

namespace Scalar

/-- A floating-point number, if there is one. -/
def orTooLarge : Option Float → Except Fault Float
  | some x => .ok x
  | none => .error .tooLarge

/-- A number as a floating-point number. -/
def toFloat? : Scalar → Except Fault Float
  | float x => .ok x
  | int i => orTooLarge (ofInt? i)

/-- A number as a value. -/
def toValue : Scalar → Value
  | int i => .int i
  | float x => .float x

/-- Applies one operation to two integers and another to all other pairs. -/
def combine (onInts : Int → Int → Int) (onFloats : Float → Float → Float) :
    Scalar → Scalar → Except Fault Scalar
  | int a, int b => .ok (int (onInts a b))
  | a, b => do return float (onFloats (← a.toFloat?) (← b.toFloat?))

/-- The quotient of two numbers as a floating-point number. The divisor is not zero. -/
def divide : Scalar → Scalar → Except Fault Float
  | int a, int b => orTooLarge (divideInts? a b)
  | a, b => do return (← a.toFloat?) / (← b.toFloat?)

end Scalar

end Number

/-- A list repeated some times, not at all for a negative count. -/
def repeated {α : Type} (count : Int) (l : List α) : List α :=
  if l.isEmpty then [] else (List.replicate count.toNat l).flatten

/-- A text repeated some times. -/
def repeatedText (count : Int) (t : String) : String := String.ofList (repeated count t.toList)

/-- The integer that a value is as a count. -/
def Value.count? : Value → Option Int
  | .bool b => some (if b then 1 else 0)
  | .int i => some i
  | _ => .none

/-- A length that no sequence has. -/
def lengthLimit : Nat := Nat.pow 2 63

/-- A length for which there is no room. -/
def roomLimit : Nat := Nat.pow 2 40

/-- Refuses to repeat a sequence of some length so many times: a count beyond all lengths is none,
and so long a sequence cannot be held. -/
def checkCount (tooLong : Fault) (count : Int) (length : Nat) : Except Fault Unit :=
  if count < -lengthLimit || (lengthLimit : Int) ≤ count then .error .tooLarge
  else if lengthLimit ≤ count.toNat * length then .error tooLong
  else if roomLimit ≤ count.toNat * length then .error .outOfMemory
  else .ok ()

namespace Store

variable (s : Store)

/-- A new list as a value. -/
def newList (l : List Value) : Value × Store :=
  let (r, s) := s.allocList l
  (.list r, s)

/-- A new tuple as a value. -/
def newTuple (l : List Value) : Value × Store :=
  let (r, s) := s.allocTuple l
  (.tuple r, s)

/-- A new dictionary as a value. -/
def newDict (d : Entries Value) : Value × Store :=
  let (r, s) := s.allocDict d
  (.dict r, s)

/-- The sum of two numbers, or two sequences of one sort joined. -/
def add (a b : Value) : Except Fault (Value × Store) :=
  match a.scalar?, b.scalar? with
  | some x, some y => do return ((← x.combine (· + ·) (· + ·) y).toValue, s)
  | _, _ =>
    match a, b with
    | .str x, .str y => .ok (.str (x ++ y), s)
    | .list x, .list y => .ok (s.newList (s.list x ++ s.list y))
    | .tuple x, .tuple y => .ok (s.newTuple (s.tuple x ++ s.tuple y))
    | _, _ => .error .unsupportedOperands

/-- The difference of two numbers. -/
def subtract (a b : Value) : Except Fault (Value × Store) :=
  match a.scalar?, b.scalar? with
  | some x, some y => do return ((← x.combine (· - ·) (· - ·) y).toValue, s)
  | _, _ => .error .unsupportedOperands

/-- A sequence repeated some times. Too long a text is refused by its length, another sequence for
want of room. -/
def repeatValue (count : Int) : Value → Except Fault (Value × Store)
  | .str t => do
    checkCount .tooLarge count t.length
    return (.str (repeatedText count t), s)
  | .list r => do
    checkCount .outOfMemory count (s.list r).length
    return s.newList (repeated count (s.list r))
  | .tuple r => do
    checkCount .outOfMemory count (s.tuple r).length
    return s.newTuple (repeated count (s.tuple r))
  | _ => .error .unsupportedOperands

/-- The product of two numbers, or a sequence repeated. -/
def multiply (a b : Value) : Except Fault (Value × Store) :=
  match a.scalar?, b.scalar? with
  | some x, some y => do return ((← x.combine (· * ·) (· * ·) y).toValue, s)
  | _, _ =>
    match a.count?, b.count? with
    | some n, _ => s.repeatValue n b
    | _, some n => s.repeatValue n a
    | _, _ => .error .unsupportedOperands

/-- The quotient of two numbers. The divisor is not zero. -/
def divide (a b : Value) : Except Fault (Value × Store) :=
  match a.scalar?, b.scalar? with
  | some x, some y => do return (.float (← x.divide y), s)
  | _, _ => .error .unsupportedOperands

end Store

end LiveTree
