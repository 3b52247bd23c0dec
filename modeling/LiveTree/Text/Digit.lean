import LiveTree.Text.Blank
import LiveTree.Text.Path

/-! Digits of every script. A decimal digit has a value and can be part of a written number; the
other digits, such as superscripts, look like digits but are part of none. -/

namespace LiveTree.Text

/-- The zeros of the scripts; the nine digits follow each of them. -/
def zeros : List Nat := [
  48, 1632, 1776, 1984, 2406, 2534, 2662, 2790, 2918, 3046, 3174, 3302, 3430, 3558, 3664, 3792,
  3872, 4160, 4240, 6112, 6160, 6470, 6608, 6784, 6800, 6992, 7088, 7232, 7248, 42528, 43216,
  43264, 43472, 43504, 43600, 44016, 65296, 66720, 68912, 69734, 69872, 69942, 70096, 70384,
  70736, 70864, 71248, 71360, 71472, 71904, 72016, 72784, 73040, 73120, 92768, 92864, 93008,
  120782, 120792, 120802, 120812, 120822, 123200, 123632, 125264, 130032]

/-- The digits that are not decimal digits. -/
def otherDigitSpans : List (Nat × Nat) := [
  (178, 179), (185, 185), (4969, 4977), (6618, 6618), (8304, 8304), (8308, 8313), (8320, 8329),
  (9312, 9320), (9332, 9340), (9352, 9360), (9450, 9450), (9461, 9469), (9471, 9471),
  (10102, 10110), (10112, 10120), (10122, 10130), (68160, 68163), (69216, 69224), (69714, 69722),
  (127232, 127242)]

/-- The value of a decimal digit. -/
def digitValue? (c : Char) : Option Nat :=
  (zeros.find? fun z => z ≤ c.toNat && c.toNat ≤ z + 9).map (c.toNat - ·)

/-- Whether a character is a digit of any sort. -/
def isDigit (c : Char) : Bool := (digitValue? c).isSome || inSpans otherDigitSpans c

/-- The longest text that is read as a number. -/
def numberLength : Nat := 4300

/-- The natural written by decimal digits of any script. -/
def readNat? (cs : List Char) : Option Nat :=
  if cs.isEmpty || numberLength < cs.length then none
  else cs.foldlM (fun n c => (digitValue? c).map (10 * n + ·)) 0

/-- The natural written by digits. Single low lines may stand between them. -/
def readGrouped? (cs : List Char) : Option Nat :=
  let groups := split '_' cs
  if groups.any List.isEmpty then none else readNat? groups.flatten

/-- The integer written by a sign and digits, with blanks around them. -/
def readInt? (s : String) : Option Int :=
  match strip s.toList with
  | '-' :: cs => (readGrouped? cs).map fun n => -(n : Int)
  | '+' :: cs => (readGrouped? cs).map Int.ofNat
  | cs => (readGrouped? cs).map Int.ofNat

end LiveTree.Text
