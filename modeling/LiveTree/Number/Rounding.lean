import LiveTree.Number.Magnitude

/-! Rounding a quotient of naturals to the nearest floating-point number of 64 bits. Halfway
cases go to the even neighbour, and a quotient beyond the largest number has none. -/

namespace LiveTree.Number

/-- The quotient rounded to the nearest integer, a half to the even one. -/
def roundHalfEven (num den : Nat) : Nat :=
  let q := num / den
  let r := num % den
  if 2 * r < den then q
  else if den < 2 * r then q + 1
  else if q % 2 = 0 then q else q + 1

/-- The 64 bits, without the sign, of the number nearest to `num / den`, as long as it is finite.
The grid is coarsened until the rounded quotient has at most 53 bits; a rounding up to 54 bits
carries into the exponent field, where it is right. -/
def nearestBits? (num den : Nat) : Option Nat :=
  let scaled := num * Nat.pow 2 gridBits
  let shift := (scaled / den).log2 - 52
  let bits := shift * Nat.pow 2 52 + roundHalfEven scaled (den * Nat.pow 2 shift)
  if bits < 2047 * Nat.pow 2 52 then some bits else none

/-- The number nearest to a quotient of naturals, with a sign. -/
def nearest? (negative : Bool) (num den : Nat) : Option Float :=
  (nearestBits? num den).map fun bits =>
    Float.ofBits (UInt64.ofNat (if negative then Nat.pow 2 63 + bits else bits))

/-- The number nearest to an integer, if one is near. -/
def ofInt? (i : Int) : Option Float := nearest? (decide (i < 0)) i.natAbs 1

/-- The number nearest to the quotient of two integers, if one is near. The divisor is not
zero, and its sign alone makes a zero quotient negative. -/
def divideInts? (a b : Int) : Option Float :=
  nearest? (decide (a < 0) != decide (b < 0)) a.natAbs b.natAbs

theorem roundHalfEven_mul_self (n d : Nat) (h : 0 < d) : roundHalfEven (n * d) d = n := by
  simp [roundHalfEven, Nat.mul_div_cancel n h, h]

end LiveTree.Number
