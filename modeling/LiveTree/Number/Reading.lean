/-! Reading floating-point numbers: an optional sign, digits, optional places and an optional
exponent, or a word for what is no finite number. The result is the number nearest to what is
written. -/

namespace LiveTree.Number

/-- The natural that some decimal digits write. -/
def readDigits (cs : List Char) : Option Nat :=
  if cs.isEmpty then none
  else cs.foldlM (fun n c => if c.isDigit then some (10 * n + (c.toNat - '0'.toNat)) else none) 0

/-- The integer that a sign and decimal digits write. -/
def readSigned : List Char → Option Int
  | '-' :: cs => (readDigits cs).map fun n => -(n : Int)
  | '+' :: cs => (readDigits cs).map Int.ofNat
  | cs => (readDigits cs).map Int.ofNat

/-- The number `mantissa * 10 ^ exponent`, rounded. -/
def ofDecimal (mantissa : Nat) (exponent : Int) : Float :=
  if exponent < 0 then Float.ofScientific mantissa true exponent.natAbs
  else Float.ofScientific mantissa false exponent.natAbs

/-- A number without a sign. -/
def readUnsigned (cs : List Char) : Option Float := do
  let isMark (c : Char) : Bool := c = 'e' || c = 'E'
  let mantissa := cs.takeWhile fun c => !isMark c
  let exponent ← match cs.dropWhile fun c => !isMark c with
    | [] => some 0
    | _ :: rest => readSigned rest
  let whole := mantissa.takeWhile (· ≠ '.')
  let places := (mantissa.dropWhile (· ≠ '.')).drop 1
  let digits ← readDigits (whole ++ places)
  return ofDecimal digits (exponent - places.length)

/-- The number that a text writes. -/
def readFloat? (s : String) : Option Float :=
  match s.toList with
  | '-' :: cs => (readMagnitude cs).map fun x => -x
  | cs => readMagnitude cs
where
  /-- A number without a sign, or a word. -/
  readMagnitude (cs : List Char) : Option Float :=
    if cs = "inf".toList ∨ cs = "Infinity".toList then some (1.0 / 0.0)
    else if cs = "nan".toList ∨ cs = "NaN".toList then some (0.0 / 0.0)
    else readUnsigned cs

end LiveTree.Number
