import LiveTree.Eval.Standard
import LiveTree.Proofs.Form.Equivalence

/-! What comparisons come to. A comparison comes to an end as long as the value on its left side
does not hold itself, whatever stands on its right side, and nodes are not looked into; integers
compare as such, and values of different sorts do not compare. -/

namespace LiveTree

theorem lenient_eq_true {found : Except Fault Bool} :
    lenient found = .ok true ↔ found = .ok true := by
  cases found with
  | ok b => rfl
  | error e => cases e <;> simp [lenient]

namespace Number.Scalar

theorem equal_comm (a b : Scalar) : a.equal b = b.equal a := by
  rw [equal, equal]
  cases a.position? <;> cases b.position? <;> simp [eq_comm]

end Number.Scalar

namespace Number.Position

theorem ofInt_lt (i j : Int) : (ofInt i).lt (ofInt j) = decide (i < j) := by
  have hstep : ∀ n : ℕ, (0 : Int) < (Nat.pow 2 n : ℕ) := fun _ =>
    Int.natCast_pos.mpr (Nat.pow_pos (by decide))
  rw [ofInt, ofInt, lt, decide_eq_decide, Int.mul_lt_mul_right (hstep gridBits)]

end Number.Position

namespace Relation

theorem scalars_ge (a b : Number.Scalar) : ge.scalars a b = le.scalars b a := by
  rw [scalars, scalars, Number.Scalar.equal_comm]
  rfl

/-- Integers compare as integers. -/
theorem scalars_le_int (i j : Int) : le.scalars (.int i) (.int j) = decide (i ≤ j) := by
  show ((Number.Position.ofInt i).lt (.ofInt j) ||
    decide (Number.Position.ofInt i = .ofInt j)) = decide (i ≤ j)
  rw [Number.Position.ofInt_lt, ← Bool.decide_or, decide_eq_decide, Number.Position.ofInt_inj]
  exact Int.le_iff_lt_or_eq.symm

end Relation

namespace Store

variable {s : Store} {rel : Relation} {v w : Value} {n : ℕ}

/-- What comparing a value looks at one level down. Nodes are not looked into. -/
def contents (s : Store) : Value → List Value
  | .node _ => []
  | v => s.parts v

theorem contents_subset_parts (s : Store) (v : Value) : s.contents v ⊆ s.parts v := by
  cases v <;> simp [contents]

theorem allEqual_returns {eq : Value → Value → Except Fault Bool} {as : List Value}
    (h : ∀ a ∈ as, ∀ b, ∃ found, eq a b = .ok found) (bs : List Value) :
    ∃ found, allEqual eq as bs = .ok found := by
  induction as generalizing bs with
  | nil => cases bs <;> exact ⟨_, rfl⟩
  | cons a as ih =>
    obtain ⟨ha, has⟩ := List.forall_mem_cons.mp h
    cases bs with
    | nil => exact ⟨_, rfl⟩
    | cons b bs =>
      obtain ⟨found, hfound⟩ := ha b
      rw [allEqual, hfound]
      cases found
      exacts [⟨_, rfl⟩, ih has bs]

theorem entriesEqual_returns {eq : Value → Value → Except Fault Bool} {l : List (String × Value)}
    (h : ∀ a ∈ l.map Prod.snd, ∀ b, ∃ found, eq a b = .ok found) (other : Entries Value) :
    ∃ found, entriesEqual eq other l = .ok found := by
  induction l with
  | nil => exact ⟨_, rfl⟩
  | cons p rest ih =>
    obtain ⟨hp, hrest⟩ := List.forall_mem_cons.mp h
    rw [entriesEqual]
    cases other.get? p.1 with
    | none => exact ⟨_, rfl⟩
    | some b =>
      obtain ⟨found, hfound⟩ := hp b
      dsimp only
      rw [hfound]
      cases found
      exacts [⟨_, rfl⟩, ih hrest]

/-- Whether values are equal is found out if one of them ends within the levels. -/
theorem equalTo_returns (h : EndsWithin s.contents n v) (w : Value) :
    ∃ found, s.equalTo n v w = .ok found := by
  induction n generalizing v w with
  | zero => exact h.elim
  | succ n ih =>
    have below : ∀ a ∈ s.contents v, ∀ b, ∃ found, s.equalTo n a b = .ok found :=
      fun a ha b => ih (h a ha) b
    unfold equalTo
    split
    · exact ⟨_, rfl⟩
    · split
      · exact ⟨_, rfl⟩
      · split
        · exact ⟨_, rfl⟩
        · exact ⟨_, rfl⟩
        · exact allEqual_returns below _
        · exact allEqual_returns below _
        · split
          exacts [entriesEqual_returns below _, ⟨_, rfl⟩]
        · exact ⟨_, rfl⟩

theorem orderSequences_returns {eq order : Value → Value → Except Fault Bool} {as : List Value}
    (heq : ∀ a ∈ as, ∀ b, ∃ found, eq a b = .ok found)
    (horder : ∀ a ∈ as, ∀ b, ∃ found, lenient (order a b) = .ok found) (bs : List Value) :
    ∃ found, lenient (orderSequences eq order rel as bs) = .ok found := by
  induction as generalizing bs with
  | nil => exact ⟨_, rfl⟩
  | cons a as ih =>
    obtain ⟨ha, has⟩ := List.forall_mem_cons.mp heq
    obtain ⟨ha', has'⟩ := List.forall_mem_cons.mp horder
    cases bs with
    | nil => exact ⟨_, rfl⟩
    | cons b bs =>
      obtain ⟨found, hfound⟩ := ha b
      rw [orderSequences, hfound]
      cases found
      exacts [ha' b, ih has has' bs]

/-- A comparison comes to an end if one of the values ends within the levels. -/
theorem orderTo_returns (h : EndsWithin s.contents n v) (w : Value) :
    ∃ found, lenient (s.orderTo rel n v w) = .ok found := by
  induction n generalizing v w with
  | zero => exact h.elim
  | succ n ih =>
    have below : ∀ a ∈ s.contents v, ∀ b, ∃ found, lenient (s.orderTo rel n a b) = .ok found :=
      fun a ha b => ih (h a ha) b
    have equal : ∀ a ∈ s.contents v, ∀ b, ∃ found, s.equalTo n a b = .ok found :=
      fun a ha b => equalTo_returns (h a ha) b
    unfold orderTo
    split
    · exact ⟨_, rfl⟩
    · split
      · exact ⟨_, rfl⟩
      · exact orderSequences_returns equal below _
      · exact orderSequences_returns equal below _
      · exact ⟨_, rfl⟩

/-- An integer compares with numbers only. -/
theorem order_int (s : Store) (rel : Relation) (i : Int) (w : Value) :
    s.order rel (.int i) w = match w.scalar? with
      | some a => .ok (rel.scalars (.int i) a)
      | none => .error .unsupportedOperands := by
  cases w <;> rfl

end Store

/-- The sorts of values that compare with their like. -/
inductive OrderSort where
  | number
  | text
  | list
  | tuple
  deriving DecidableEq, Inhabited, Repr

/-- The sort of a value that compares with its like. -/
def Value.orderSort? : Value → Option OrderSort
  | .bool _ => some .number
  | .int _ => some .number
  | .float _ => some .number
  | .str _ => some .text
  | .list _ => some .list
  | .tuple _ => some .tuple
  | _ => .none

/-- Whether two values compare, one way or the other. -/
def Store.Compares (s : Store) (v w : Value) : Prop := ∃ rel b, s.order rel v w = .ok b

/-- Values of different sorts do not compare, and some values with none at all. -/
theorem Store.not_compares (s : Store) {v w : Value}
    (h : v.orderSort? = none ∨ v.orderSort? ≠ w.orderSort?) : ¬ s.Compares v w := by
  rintro ⟨rel, b, hb⟩
  have herror : s.order rel v w = .error .unsupportedOperands := by
    cases v <;> cases w <;> first | rfl | simp [Value.orderSort?] at h
  cases herror.symm.trans hb

end LiveTree
