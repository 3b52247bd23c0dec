import LiveTree.Number.Magnitude

/-! The shortest decimal that reads back as a given floating-point number, and how it is laid out.
Of the decimals with the fewest digits the one nearest to the number is taken, and of two that
are equally near the even one. -/

namespace LiveTree.Number

/-- The decimal `digits * 10 ^ exponent`. -/
structure Decimal where
  digits : Nat
  exponent : Int
  deriving DecidableEq, Inhabited, Repr

/-- The decimal digits of a natural. -/
def digitsOf (n : Nat) : List Char := Nat.toDigits 10 n

/-- The reals that round to `mantissa * 2 ^ shift` grid steps, in quarters of a step: the ends of
the interval, the middle, and whether the ends belong to it. -/
structure Interval where
  low : Nat
  middle : Nat
  high : Nat
  closed : Bool
  deriving DecidableEq, Inhabited, Repr

namespace Interval

/-- Half of the way to each neighbour. Below a power of two the neighbour is at half the
distance. -/
def around (mantissa shift : Nat) : Interval :=
  let step := Nat.pow 2 shift
  let middle := 4 * mantissa * step
  { low := middle - (if mantissa = Nat.pow 2 52 ∧ 0 < shift then step else 2 * step)
    middle
    high := middle + 2 * step
    closed := mantissa % 2 = 0 }

/-- Whether `c * step` lies in the interval scaled by `scale`. -/
def holds (iv : Interval) (scale step c : Nat) : Bool :=
  let x := c * step
  if iv.closed then iv.low * scale ≤ x && x ≤ iv.high * scale
  else iv.low * scale < x && x < iv.high * scale

/-- The point of the grid `10 ^ p` in the interval that is nearest to the middle, if one of the
two neighbours of the middle lies in the interval. -/
def pick? (iv : Interval) (p : Int) : Option Decimal :=
  let scale := Nat.pow 10 (-p).toNat
  let step := Nat.pow 2 (gridBits + 2) * Nat.pow 10 p.toNat
  let x := iv.middle * scale
  let c := x / step
  let below := x - c * step
  let above := (c + 1) * step - x
  match iv.holds scale step c, iv.holds scale step (c + 1) with
  | true, true =>
    some ⟨if below < above then c else if above < below then c + 1
      else if c % 2 = 0 then c else c + 1, p⟩
  | true, false => some ⟨c, p⟩
  | false, true => some ⟨c + 1, p⟩
  | false, false => none

/-- The exponent of the leading decimal digit of the middle. -/
def leading (iv : Interval) : Int :=
  let unit := Nat.pow 2 (gridBits + 2)
  if unit ≤ iv.middle then (digitsOf (iv.middle / unit)).length - 1
  else -((digitsOf (unit / iv.middle)).length : Int)

/-- The first grid, from one digit to seventeen, with a point in the interval. -/
def shortest (iv : Interval) : Decimal :=
  let e := iv.leading
  ((List.range 17).findSome? fun (n : Nat) => iv.pick? (e - n)).getD ⟨0, 0⟩

end Interval

/-- How a floating-point number is written. -/
structure Layout where
  /-- The least exponent of the leading digit that is written positionally. -/
  lowest : Int
  /-- The first exponent that is not. -/
  bound : Int
  /-- The least number of digits of a written exponent. -/
  exponentDigits : Nat
  infinity : String
  nan : String

namespace Layout

/-- The layout of values: `1e+16` and `1e-05` are the first numbers with an exponent. -/
def plain : Layout := ⟨-4, 16, 2, "inf", "nan"⟩

/-- The layout of interchange text, which differs in the words. -/
def interchange : Layout := { plain with infinity := "Infinity", nan := "NaN" }

/-- Writes a decimal whose digits have no trailing zero. A whole number gets one place. -/
def decimal (l : Layout) (digits : List Char) (exponent : Int) : List Char :=
  let count : Int := digits.length
  let e := exponent + count - 1
  if l.lowest ≤ e ∧ e < l.bound then
    if 0 ≤ exponent then digits ++ List.replicate exponent.toNat '0' ++ ['.', '0']
    else if 0 ≤ e then
      digits.take (e + 1).toNat ++ ['.'] ++ digits.drop (e + 1).toNat
    else ['0', '.'] ++ List.replicate (-e - 1).toNat '0' ++ digits
  else
    let power := digitsOf e.natAbs
    let mantissa := match digits with
      | [] => []
      | [d] => [d]
      | d :: rest => d :: '.' :: rest
    mantissa ++ ['e', if e < 0 then '-' else '+']
      ++ List.replicate (l.exponentDigits - power.length) '0' ++ power

/-- Moves trailing zeros of the digits into the exponent. -/
def trim (digits : List Char) (exponent : Int) : List Char × Int :=
  let kept := (digits.reverse.dropWhile (· = '0')).reverse
  (kept, exponent + ((digits.length : Int) - kept.length))

/-- The text of a floating-point number. -/
def text (l : Layout) (x : Float) : String :=
  let signed (negative : Bool) (s : String) := if negative then "-" ++ s else s
  match Magnitude.ofFloat x with
  | .nan => l.nan
  | .infinite negative => signed negative l.infinity
  | .finite negative 0 _ => signed negative "0.0"
  | .finite negative m s =>
    let d := (Interval.around m s).shortest
    let (digits, exponent) := trim (digitsOf d.digits) d.exponent
    signed negative (String.ofList (l.decimal digits exponent))

end Layout

end LiveTree.Number
