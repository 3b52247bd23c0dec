import LiveTree.Fault
import LiveTree.Number.Magnitude
import LiveTree.Store

/-! Truth, equality and order of values. A truth value counts as the integer zero or one, integers
and floating-point numbers compare by their exact values, texts compare by code points, and
sequences by the first place where they differ. -/

namespace LiveTree

namespace Number

/-- A number of either sort. -/
inductive Scalar where
  | int (i : Int)
  | float (x : Float)
  deriving Inhabited

namespace Scalar

/-- The place of a number on the extended line, if it has one. -/
def position? : Scalar → Option Position
  | int i => some (.ofInt i)
  | float x => Position.ofFloat? x

/-- Whether two numbers are in one place. -/
def equal (a b : Scalar) : Bool :=
  match a.position?, b.position? with
  | some p, some q => decide (p = q)
  | _, _ => false

/-- Whether one number is below another. -/
def below (a b : Scalar) : Bool :=
  match a.position?, b.position? with
  | some p, some q => p.lt q
  | _, _ => false

end Scalar

end Number

/-- The four order relations. -/
inductive Relation where
  | lt
  | le
  | gt
  | ge
  deriving DecidableEq, Inhabited, Repr

namespace Relation

/-- A relation in terms of "below" and "equal". -/
def holds (rel : Relation) (below equal above : Bool) : Bool :=
  match rel with
  | lt => below
  | le => below || equal
  | gt => above
  | ge => above || equal

/-- A relation between two numbers. -/
def scalars (rel : Relation) (a b : Number.Scalar) : Bool :=
  rel.holds (a.below b) (a.equal b) (b.below a)

/-- A relation between two texts. -/
def texts (rel : Relation) (a b : String) : Bool :=
  rel.holds (decide (a < b)) (decide (a = b)) (decide (b < a))

/-- A relation between two lengths. -/
def lengths (rel : Relation) (a b : Nat) : Bool :=
  rel.holds (decide (a < b)) (decide (a = b)) (decide (b < a))

end Relation

/-- The number that a value is; a truth value is zero or one. -/
def Value.scalar? : Value → Option Number.Scalar
  | .bool b => some (.int (if b then 1 else 0))
  | .int i => some (.int i)
  | .float x => some (.float x)
  | _ => .none

namespace Store

variable (s : Store)

/-- Whether a value counts as true: all but the absent value, false, zero, and what is empty. -/
def truthy : Value → Bool
  | .none => false
  | .bool b => b
  | .int i => decide (i ≠ 0)
  | .float x => !(Number.Scalar.float x).equal (.int 0)
  | .str t => !t.isEmpty
  | .list r => !(s.list r).isEmpty
  | .tuple r => !(s.tuple r).isEmpty
  | .dict r => !(s.dict r).isEmpty
  | .node _ => true

/-- Whether each value of a list is equal to its partner in another of the same length. -/
def allEqual (eq : Value → Value → Except Fault Bool) : List Value → List Value → Except Fault Bool
  | [], [] => .ok true
  | a :: as, b :: bs => do if ← eq a b then allEqual eq as bs else return false
  | _, _ => .ok false

/-- Whether each entry has an equal entry of the same name in another map. -/
def entriesEqual (eq : Value → Value → Except Fault Bool) (other : Entries Value) :
    List (String × Value) → Except Fault Bool
  | [] => .ok true
  | (k, a) :: rest =>
    match other.get? k with
    | none => .ok false
    | some b => do if ← eq a b then entriesEqual eq other rest else return false

/-- Whether two values are equal, to a given depth. A cell is equal to itself. -/
def equalTo : Nat → Value → Value → Except Fault Bool
  | 0, _, _ => .error .endless
  | n + 1, a, b =>
    if a.sameCell b then .ok true
    else match a.scalar?, b.scalar? with
    | some x, some y => .ok (x.equal y)
    | _, _ =>
      match a, b with
      | .none, .none => .ok true
      | .str x, .str y => .ok (decide (x = y))
      | .list x, .list y => allEqual (equalTo n) (s.list x) (s.list y)
      | .tuple x, .tuple y => allEqual (equalTo n) (s.tuple x) (s.tuple y)
      | .dict x, .dict y =>
        if (s.dict x).size = (s.dict y).size then
          entriesEqual (equalTo n) (s.dict y) (s.dict x).toList
        else .ok false
      | _, _ => .ok false

/-- Whether two values are equal. Nodes are equal only to themselves. -/
def equal (a b : Value) : Except Fault Bool := s.equalTo s.depthBound a b

/-- Compares two sequences: the first pair that is not equal decides, else the lengths. -/
def orderSequences (eq : Value → Value → Except Fault Bool)
    (order : Value → Value → Except Fault Bool) (rel : Relation) :
    List Value → List Value → Except Fault Bool
  | a :: as, b :: bs => do
    if ← eq a b then orderSequences eq order rel as bs else order a b
  | as, bs => .ok (rel.lengths as.length bs.length)

/-- Whether a relation holds between two values, to a given depth. -/
def orderTo (rel : Relation) : Nat → Value → Value → Except Fault Bool
  | 0, _, _ => .error .endless
  | n + 1, a, b =>
    match a.scalar?, b.scalar? with
    | some x, some y => .ok (rel.scalars x y)
    | _, _ =>
      match a, b with
      | .str x, .str y => .ok (rel.texts x y)
      | .list x, .list y => orderSequences (s.equalTo n) (orderTo rel n) rel (s.list x) (s.list y)
      | .tuple x, .tuple y =>
        orderSequences (s.equalTo n) (orderTo rel n) rel (s.tuple x) (s.tuple y)
      | _, _ => .error .unsupportedOperands

/-- Whether a relation holds between two values. Values of different sorts have no order. -/
def order (rel : Relation) (a b : Value) : Except Fault Bool := s.orderTo rel s.depthBound a b

end Store

end LiveTree
