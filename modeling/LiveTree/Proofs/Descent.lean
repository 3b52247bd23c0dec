import Mathlib.Data.List.Nodup
import Mathlib.Data.List.Perm.Subperm
import Mathlib.Logic.Relation

/-! Descents. A function that lists what lies below each thing is followed downwards; the descent
ends when no thing comes to lie below itself and only finitely many have anything below them. -/

namespace LiveTree

open Relation

variable {α : Type} (next : α → List α)

/-- Whether one thing lies directly below another. -/
def Above (a b : α) : Prop := b ∈ next a

/-- Whether one thing is another or lies somewhere below it. -/
def Reaches : α → α → Prop := ReflTransGen (Above next)

/-- Whether no thing at or below another lies below itself. -/
def Acyclic (a : α) : Prop := ∀ b, Reaches next a b → ¬ TransGen (Above next) b b

/-- Whether every descent from a thing is over after so many things, the first one included. -/
def EndsWithin : ℕ → α → Prop
  | 0, _ => False
  | n + 1, a => ∀ b ∈ next a, EndsWithin n b

variable {next}

theorem Reaches.refl (a : α) : Reaches next a a := ReflTransGen.refl

theorem Reaches.below {a b c : α} (h : Reaches next a b) (hc : c ∈ next b) : Reaches next a c :=
  ReflTransGen.tail h hc

theorem Reaches.of_below {a b c : α} (hb : b ∈ next a) (h : Reaches next b c) : Reaches next a c :=
  ReflTransGen.head hb h

theorem Reaches.trans {a b c : α} (h : Reaches next a b) (h' : Reaches next b c) :
    Reaches next a c := ReflTransGen.trans h h'

/-- A thing that is closed under going down holds of all that is reached. -/
theorem Reaches.closed {P : α → Prop} {a b : α} (h : Reaches next a b) (ha : P a)
    (hP : ∀ x, Reaches next a x → P x → ∀ y ∈ next x, P y) : P b := by
  induction h with
  | refl => exact ha
  | tail hx hy ih => exact hP _ hx ih _ hy

/-- What holds of all that is reached holds of a thing itself and of all that is reached below. -/
theorem Reaches.forall_iff {P : α → Prop} {a : α} : (∀ b, Reaches next a b → P b) ↔
    P a ∧ ∀ c ∈ next a, ∀ b, Reaches next c b → P b := by
  constructor
  · exact fun h => ⟨h a (.refl a), fun c hc b hb => h b (hb.of_below hc)⟩
  · rintro ⟨ha, hbelow⟩ b hb
    rcases ReflTransGen.cases_head hb with rfl | ⟨c, hc, hb⟩
    · exact ha
    · exact hbelow c hc b hb

theorem EndsWithin.pos {n : ℕ} {a : α} (h : EndsWithin next n a) : ∃ m, n = m + 1 := by
  cases n with
  | zero => exact h.elim
  | succ m => exact ⟨m, rfl⟩

theorem EndsWithin.mono {n m : ℕ} {a : α} (h : EndsWithin next n a) (hm : n ≤ m) :
    EndsWithin next m a := by
  induction n generalizing m a with
  | zero => exact h.elim
  | succ n ih =>
    obtain ⟨m, rfl⟩ : ∃ k, m = k + 1 := ⟨m - 1, by omega⟩
    exact fun b hb => ih (h b hb) (by omega)

theorem EndsWithin.reaches {n : ℕ} {a b : α} (h : EndsWithin next n a) (hb : Reaches next a b) :
    EndsWithin next n b :=
  hb.closed h fun _ _ hx y hy => by
    obtain ⟨m, rfl⟩ := hx.pos
    exact EndsWithin.mono (hx y hy) (Nat.le_succ m)

theorem EndsWithin.not_cycle {n : ℕ} {a : α} (h : EndsWithin next n a) :
    ¬ TransGen (Above next) a a := by
  induction n generalizing a with
  | zero => exact h.elim
  | succ n ih =>
    intro hcycle
    obtain ⟨b, hb, hba⟩ := TransGen.head'_iff.mp hcycle
    exact ih (h b hb) (TransGen.tail' hba hb)

/-- What ends never comes back to a thing. -/
theorem EndsWithin.acyclic {n : ℕ} {a : α} (h : EndsWithin next n a) : Acyclic next a :=
  fun _ hb => (h.reaches hb).not_cycle

instance EndsWithin.decidable : ∀ (n : ℕ) (a : α), Decidable (EndsWithin next n a)
  | 0, _ => inferInstanceAs (Decidable False)
  | n + 1, a =>
    have : DecidablePred (EndsWithin next n) := EndsWithin.decidable n
    inferInstanceAs (Decidable (∀ b ∈ next a, EndsWithin next n b))

/-- A descent that leaves things out ends no later. -/
theorem EndsWithin.of_subset {next' : α → List α} {n : ℕ} {a : α} (h : EndsWithin next n a)
    (hsub : ∀ b, next' b ⊆ next b) : EndsWithin next' n a := by
  induction n generalizing a with
  | zero => exact h.elim
  | succ n ih => exact fun b hb => ih (h b (hsub a hb))

/-- Functions that list the same below everything that is reached end together. -/
theorem EndsWithin.congr {next' : α → List α} {n : ℕ} {a : α} (h : EndsWithin next n a)
    (he : ∀ b, Reaches next a b → next' b = next b) : EndsWithin next' n a := by
  induction n generalizing a with
  | zero => exact h.elim
  | succ n ih =>
    intro b hb
    rw [he a (.refl a)] at hb
    exact ih (h b hb) fun c hc => he c (hc.of_below hb)

section Finite

variable {code : α → ℕ} {bound : ℕ}

/-- Distinct things with distinct numbers below a bound are no more than the bound. -/
theorem length_le_of_codes {path : List α} (hnodup : path.Nodup) (hlt : ∀ b ∈ path, code b < bound)
    (hinj : ∀ b ∈ path, ∀ c ∈ path, code b = code c → b = c) : path.length ≤ bound := by
  have hcodes : (path.map code).Nodup := List.Nodup.map_on hinj hnodup
  have hsub : path.map code ⊆ List.range bound := by
    intro i hi
    obtain ⟨b, hb, rfl⟩ := List.mem_map.mp hi
    exact List.mem_range.mpr (hlt b hb)
  have := (List.subperm_of_subset hcodes hsub).length_le
  simpa using this

/-- A descent without return ends when the things with something below them have distinct numbers
below a bound: a path never meets one of them twice. -/
theorem Acyclic.endsWithin {a : α} (h : Acyclic next a)
    (hlt : ∀ b, Reaches next a b → next b ≠ [] → code b < bound)
    (hinj : ∀ b c, Reaches next a b → Reaches next a c → next b ≠ [] → next c ≠ [] →
      code b = code c → b = c) : EndsWithin next (bound + 1) a := by
  -- `path` holds what the descent has gone through, all of it above the thing it has come to
  suffices key : ∀ (n : ℕ) (path : List α) (b : α), path.Nodup → Reaches next a b →
      (∀ x ∈ path, Reaches next a x ∧ next x ≠ [] ∧ TransGen (Above next) x b) →
      bound + 1 ≤ n + path.length → EndsWithin next n b from
    key (bound + 1) [] a List.nodup_nil (.refl a) (by simp) (by simp)
  intro n
  induction n with
  | zero =>
    intro path b hnodup _ hpath hn
    have := length_le_of_codes hnodup (fun x hx => hlt x (hpath x hx).1 (hpath x hx).2.1)
      fun x hx y hy => hinj x y (hpath x hx).1 (hpath y hy).1 (hpath x hx).2.1 (hpath y hy).2.1
    omega
  | succ n ih =>
    intro path b hnodup hb hpath hn c hc
    have hne : next b ≠ [] := List.ne_nil_of_mem hc
    have hfresh : b ∉ path := fun hmem => h b hb (hpath b hmem).2.2
    refine ih (b :: path) c (List.nodup_cons.mpr ⟨hfresh, hnodup⟩) (hb.below hc) ?_ (by simp; omega)
    intro x hx
    rcases List.mem_cons.mp hx with rfl | hx
    · exact ⟨hb, hne, .single hc⟩
    · exact ⟨(hpath x hx).1, (hpath x hx).2.1, (hpath x hx).2.2.tail hc⟩

end Finite

end LiveTree
