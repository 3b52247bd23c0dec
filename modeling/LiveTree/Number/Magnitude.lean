/-! The exact value of a binary floating-point number. Every finite number of 64 bits is a whole
multiple of `2 ^ (-1074)`, so numbers compare by their multiples, which are integers. -/

namespace LiveTree.Number

/-- The number of binary places of the finest grid that numbers of 64 bits lie on. -/
def gridBits : Nat := 1074

/-- What the 64 bits of a number say. A finite number is `mantissa * 2 ^ shift` grid steps. -/
inductive Magnitude where
  | nan
  | infinite (negative : Bool)
  | finite (negative : Bool) (mantissa shift : Nat)
  deriving DecidableEq, Inhabited, Repr

namespace Magnitude

/-- Reads sign, exponent and fraction off the 64 bits. -/
def ofBits (bits : Nat) : Magnitude :=
  let negative := bits / Nat.pow 2 63 = 1
  let exponent := bits / Nat.pow 2 52 % Nat.pow 2 11
  let fraction := bits % Nat.pow 2 52
  if exponent = Nat.pow 2 11 - 1 then
    if fraction = 0 then infinite negative else nan
  else if exponent = 0 then finite negative fraction 0
  else finite negative (Nat.pow 2 52 + fraction) (exponent - 1)

/-- The magnitude of a floating-point number. -/
def ofFloat (x : Float) : Magnitude := ofBits x.toBits.toNat

end Magnitude

/-- The place of a number on the extended line: below all, some grid steps, above all. -/
inductive Position where
  | bottom
  | steps (n : Int)
  | top
  deriving DecidableEq, Inhabited, Repr

namespace Position

/-- The position of a floating-point number. What is not a number has none. -/
def ofFloat? (x : Float) : Option Position :=
  match Magnitude.ofFloat x with
  | .nan => none
  | .infinite true => some bottom
  | .infinite false => some top
  | .finite negative m s =>
    let n : Int := (m * Nat.pow 2 s : Nat)
    some (steps (if negative then -n else n))

/-- The position of an integer. -/
def ofInt (i : Int) : Position := steps (i * (Nat.pow 2 gridBits : Nat))

/-- Whether one position is below another. -/
def lt : Position → Position → Bool
  | bottom, bottom => false
  | bottom, _ => true
  | steps _, bottom => false
  | steps m, steps n => decide (m < n)
  | steps _, top => true
  | top, _ => false

theorem lt_irrefl (a : Position) : lt a a = false := by
  cases a <;> simp [lt]

theorem lt_trichotomy (a b : Position) : lt a b = true ∨ a = b ∨ lt b a = true := by
  cases a <;> cases b <;> simp [lt]
  omega

theorem lt_asymm {a b : Position} (h : lt a b = true) : lt b a = false := by
  cases a <;> cases b <;> simp_all [lt]
  omega

end Position

end LiveTree.Number
