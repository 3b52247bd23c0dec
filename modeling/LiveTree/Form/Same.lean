import LiveTree.Value.Order

/-! Structural equality of nodes and values. Types are compared by id, lists and tuples by their
elements, and maps without regard to the order of their entries. -/

namespace LiveTree.Store

variable (s : Store)

/-- Whether two maps have the same names. -/
def sameNames {α β : Type} (a : Entries α) (b : Entries β) : Bool :=
  a.size = b.size && a.keys.all b.contains

/-- Whether values are the same pair by pair. -/
def allSame (same : Value → Value → Except Fault Bool) :
    List Value → List Value → Except Fault Bool
  | [], [] => .ok true
  | a :: as, b :: bs => do if ← same a b then allSame same as bs else return false
  | _, _ => .ok false

/-- Whether each entry is the same as the entry of that name in another map. -/
def entriesSame (same : Value → Value → Except Fault Bool) (other : Entries Value) :
    List (String × Value) → Except Fault Bool
  | [] => .ok true
  | (k, a) :: rest => do
    if ← same a ((other.get? k).getD .none) then entriesSame same other rest else return false

/-- Whether two maps have the same names with the same values under them. -/
def mapsSame (same : Value → Value → Except Fault Bool) (a b : Entries Value) :
    Except Fault Bool :=
  if sameNames a b then entriesSame same b a.toList else .ok false

/-- The elements of a list or tuple. -/
def sequence? : Value → Option (List Value)
  | .list r => some (s.list r)
  | .tuple r => some (s.tuple r)
  | _ => none

/-- Whether the maps of two nodes are the same, role by role. -/
def rolesSame (same : Value → Value → Except Fault Bool) (a b : Node) :
    List Role → Except Fault Bool
  | [] => .ok true
  | role :: rest => do
    if ← mapsSame same ((a.entries role).map .node) ((b.entries role).map .node) then
      rolesSame same a b rest
    else return false

/-- Whether two values are the same, to a given depth. -/
def sameTo : Nat → Value → Value → Except Fault Bool
  | 0, _, _ => .error .endless
  | n + 1, a, b =>
    if a.sameCell b then .ok true
    else match a, b with
    | .none, .none => .ok true
    | .node x, .node y => do
      let a := s.node x
      let b := s.node y
      if a.id = b.id ∧ (s.node a.type).id = (s.node b.type).id then
        if ← sameTo n a.value b.value then
          if ← sameTo n a.default b.default then rolesSame (sameTo n) a b Role.all
          else return false
        else return false
      else return false
    | .dict x, .dict y => mapsSame (sameTo n) (s.dict x) (s.dict y)
    | a, b =>
      match s.sequence? a, s.sequence? b with
      | some xs, some ys => if xs.length = ys.length then allSame (sameTo n) xs ys else .ok false
      | _, _ => s.equal a b

/-- Whether two values are structurally equal. -/
def same (a b : Value) : Except Fault Bool := s.sameTo s.depthBound a b

/-- Whether two nodes are structurally equal. -/
def sameNodes (a b : NodeRef) : Except Fault Bool := s.same (.node a) (.node b)

end LiveTree.Store
