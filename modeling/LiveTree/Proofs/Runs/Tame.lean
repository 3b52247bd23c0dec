import LiveTree.Eval.Evaluate
import Mathlib.Logic.Function.Basic

/-! Faults of evaluation. Whatever is worked out on a store can fail in many ways, but never for the
reason that a wrapper has been destroyed: evaluation knows nodes only. -/

namespace LiveTree

variable {α β : Type}

/-- Whether a fault is another one than that a wrapper has been destroyed. -/
def Fault.Tame (e : Fault) : Prop := ∀ id, e ≠ .destroyed id

/-- Whether a result, if it is a fault, is another one than that a wrapper has been destroyed. -/
def Tame (r : Except Fault α) : Prop := ∀ e, r = .error e → e.Tame

namespace Tame

theorem ok (a : α) : Tame (.ok a : Except Fault α) := fun _ h => nomatch h

theorem error {e : Fault} (h : e.Tame) : Tame (.error e : Except Fault α) := by
  rintro _ ⟨⟩
  exact h

theorem bind {r : Except Fault α} {k : α → Except Fault β} (hr : Tame r) (hk : ∀ a, Tame (k a)) :
    Tame (r >>= k) := by
  cases r with
  | ok a => exact hk a
  | error e => exact .error (hr e rfl)

theorem map {r : Except Fault α} (hr : Tame r) (f : α → β) : Tame (f <$> r) := by
  cases r with
  | ok a => exact .ok _
  | error e => exact .error (hr e rfl)

theorem mapM {f : α → Except Fault β} (h : ∀ a, Tame (f a)) (l : List α) : Tame (l.mapM f) := by
  induction l with
  | nil => exact .ok _
  | cons a rest ih =>
    rw [List.mapM_cons]
    exact .bind (h a) fun _ => .bind ih fun _ => .ok _

end Tame

theorem tame_argumentNumber (key : String) : Tame (argumentNumber key) := by
  unfold argumentNumber
  split
  · exact .error nofun
  · split
    · exact .error nofun
    · split
      exacts [.ok _, .error nofun]

theorem tame_argumentOrder (keys : List String) : Tame (argumentOrder keys) :=
  .bind (.mapM (fun key => .bind (tame_argumentNumber key) fun _ => .ok _) keys) fun _ => .ok _

theorem Segment.tame_find (m : Entries α) (seg : Segment) : Tame (seg.find m) := by
  unfold Segment.find
  split
  exacts [.ok _, .ok _, .error nofun]

theorem Segment.tame_index? (seg : Segment) : Tame seg.index? := by
  unfold Segment.index?
  split
  · exact .error nofun
  · split
    · exact .ok _
    · split
      exacts [.ok _, .error nofun]

namespace Number.Scalar

theorem tame_orTooLarge (x : Option Float) : Tame (orTooLarge x) := by
  cases x
  exacts [.error nofun, .ok _]

theorem tame_toFloat? (x : Scalar) : Tame x.toFloat? := by
  cases x with
  | float x => exact .ok x
  | int i => exact tame_orTooLarge (ofInt? i)

theorem tame_combine (onInts : Int → Int → Int) (onFloats : Float → Float → Float) (x y : Scalar) :
    Tame (x.combine onInts onFloats y) := by
  unfold combine
  split
  · exact .ok _
  · exact .bind (tame_toFloat? _) fun _ => .bind (tame_toFloat? _) fun _ => .ok _

theorem tame_divide (x y : Scalar) : Tame (x.divide y) := by
  unfold divide
  split
  · exact tame_orTooLarge (divideInts? _ _)
  · exact .bind (tame_toFloat? _) fun _ => .bind (tame_toFloat? _) fun _ => .ok _

end Number.Scalar

theorem tame_checkCount {e : Fault} (he : e.Tame) (count : Int) (length : Nat) :
    Tame (checkCount e count length) := by
  unfold checkCount
  repeat' split
  exacts [.error nofun, .error he, .error nofun, .ok _]

theorem tame_intText (i : Int) : Tame (intText i) := by
  unfold intText
  split
  exacts [.ok _, .error nofun]

theorem tame_lenient {r : Except Fault Bool} (h : Tame r) : Tame (lenient r) := by
  unfold lenient
  split
  exacts [.ok _, h]

namespace Store

variable (s : Store)

theorem tame_segments (path : Value) : Tame (s.segments path) := by
  unfold segments
  split
  · exact .ok _
  · split
    exacts [.ok _, .ok _, .ok _, .error nofun, .error nofun]

theorem tame_searchEntries {below : NodeRef → Except Fault (Option NodeRef)}
    (h : ∀ r, Tame (below r)) (target holder : NodeRef) (entries : List NodeRef) :
    Tame (searchEntries below target holder entries) := by
  induction entries with
  | nil => exact .ok _
  | cons entry rest ih =>
    rw [searchEntries]
    split
    · exact .ok _
    · refine .bind (h entry) fun found => ?_
      cases found with
      | some p => exact .ok _
      | none => exact ih

theorem tame_findParent (target root : NodeRef) : Tame (s.findParent target root) := by
  have hbelow : ∀ n r, Tame (s.searchBelow target n r) := by
    intro n
    induction n with
    | zero => exact fun _ => .error nofun
    | succ n ih => exact fun r => tame_searchEntries ih target r _
  unfold findParent
  split
  exacts [.ok _, hbelow _ _]

theorem tame_allEqual {eq : Value → Value → Except Fault Bool} (h : ∀ a b, Tame (eq a b))
    (as bs : List Value) : Tame (allEqual eq as bs) := by
  induction as generalizing bs with
  | nil => cases bs <;> exact .ok _
  | cons a as ih =>
    cases bs with
    | nil => exact .ok _
    | cons b bs =>
      refine .bind (h a b) fun yes => ?_
      split
      exacts [ih bs, .ok _]

theorem tame_entriesEqual {eq : Value → Value → Except Fault Bool} (h : ∀ a b, Tame (eq a b))
    (other : Entries Value) (l : List (String × Value)) : Tame (entriesEqual eq other l) := by
  induction l with
  | nil => exact .ok _
  | cons p rest ih =>
    rw [entriesEqual]
    split
    · exact .ok _
    · refine .bind (h _ _) fun yes => ?_
      split
      exacts [ih, .ok _]

theorem tame_equalTo (n : Nat) (a b : Value) : Tame (s.equalTo n a b) := by
  induction n generalizing a b with
  | zero => exact .error nofun
  | succ n ih =>
    unfold equalTo
    repeat' split
    all_goals first
      | exact .ok _
      | exact tame_allEqual ih _ _
      | exact tame_entriesEqual ih _ _

theorem tame_orderSequences {eq order : Value → Value → Except Fault Bool}
    (heq : ∀ a b, Tame (eq a b)) (horder : ∀ a b, Tame (order a b)) (rel : Relation)
    (as bs : List Value) : Tame (orderSequences eq order rel as bs) := by
  induction as generalizing bs with
  | nil => exact .ok _
  | cons a as ih =>
    cases bs with
    | nil => exact .ok _
    | cons b bs =>
      refine .bind (heq a b) fun yes => ?_
      split
      exacts [ih bs, horder a b]

theorem tame_orderTo (rel : Relation) (n : Nat) (a b : Value) : Tame (s.orderTo rel n a b) := by
  induction n generalizing a b with
  | zero => exact .error nofun
  | succ n ih =>
    unfold orderTo
    repeat' split
    all_goals first
      | exact .ok _
      | exact tame_orderSequences (s.tame_equalTo n) ih rel _ _
      | exact .error nofun

theorem tame_written (n : Nat) (within : List Cell) (v : Value) : Tame (s.written n within v) := by
  induction n generalizing within v with
  | zero => exact .error nofun
  | succ n ih =>
    unfold written
    split
    · exact .ok _
    · exact .ok _
    · exact .ok _
    · exact tame_intText _
    · exact .ok _
    · exact .ok _
    · split
      exacts [.ok _, .bind (.mapM (ih _) _) fun _ => .ok _]
    · split
      exacts [.ok _, .bind (.mapM (ih _) _) fun _ => .ok _]
    · split
      · exact .ok _
      · exact .bind (.mapM (fun p => .bind (ih _ _) fun _ => .ok _) _) fun _ => .ok _
    · dsimp only
      split
      exacts [.ok _, .bind (ih _ _) fun _ => .ok _]

theorem tame_valueText (v : Value) : Tame (s.valueText v) := by
  unfold valueText
  split
  exacts [.ok _, s.tame_written _ _ _]

theorem tame_shownText (v : Value) : Tame (s.shownText v) := by
  unfold shownText
  split
  exacts [.ok _, s.tame_valueText _]

theorem tame_repeatValue (n : Int) (a : Value) : Tame (s.repeatValue n a) := by
  unfold repeatValue
  split
  · exact .bind (tame_checkCount (e := .tooLarge) nofun _ _) fun _ => .ok _
  · exact .bind (tame_checkCount (e := .outOfMemory) nofun _ _) fun _ => .ok _
  · exact .bind (tame_checkCount (e := .outOfMemory) nofun _ _) fun _ => .ok _
  · exact .error nofun

theorem tame_add (a b : Value) : Tame (s.add a b) := by
  unfold add
  split
  · exact .bind (Number.Scalar.tame_combine _ _ _ _) fun _ => .ok _
  · split
    exacts [.ok _, .ok _, .ok _, .error nofun]

theorem tame_subtract (a b : Value) : Tame (s.subtract a b) := by
  unfold subtract
  split
  exacts [.bind (Number.Scalar.tame_combine _ _ _ _) fun _ => .ok _, .error nofun]

theorem tame_multiply (a b : Value) : Tame (s.multiply a b) := by
  unfold multiply
  split
  · exact .bind (Number.Scalar.tame_combine _ _ _ _) fun _ => .ok _
  · split
    exacts [s.tame_repeatValue _ _, s.tame_repeatValue _ _, .error nofun]

theorem tame_divide (a b : Value) : Tame (s.divide a b) := by
  unfold divide
  split
  exacts [.bind (Number.Scalar.tame_divide _ _) fun _ => .ok _, .error nofun]

end Store

end LiveTree
