import Mathlib.Data.Nat.Digits.Defs
import Mathlib.Tactic.IntervalCases
import LiveTree.Build.Make
import LiveTree.Proofs.Eval.ArgumentOrder

/-! The keys of a call. The number of an argument is written into its key in decimal digits and read
back as the same number, as far as numbers are read at all. So in whatever order the entries of a
call come, its keys are put in the order of the call, and the arguments under them are those that it
was made with. -/

namespace LiveTree

namespace Text

theorem digitValue?_digitChar {d : ℕ} (h : d < 10) : digitValue? d.digitChar = some d := by
  interval_cases d <;> decide

/-- The decimal digits of a number are read as that number. -/
theorem foldlM_toDigits (n : ℕ) :
    (Nat.toDigits 10 n).foldlM (fun n c => (digitValue? c).map (10 * n + ·)) 0 = some n := by
  induction n using Nat.strongRecOn with
  | ind n ih =>
    by_cases h : n < 10
    · rw [Nat.toDigits_of_lt_base h, List.foldlM_cons, digitValue?_digitChar h]
      simp
    · have hlast : n % 10 < 10 := Nat.mod_lt _ (by decide)
      rw [Nat.toDigits_of_base_le (by decide) (Nat.le_of_not_lt h), List.foldlM_append,
        ih (n / 10) (by omega)]
      simp only [Option.bind_eq_bind, Option.bind_some, List.foldlM_cons, List.foldlM_nil,
        digitValue?_digitChar hlast, Option.map_some]
      exact congrArg some (Nat.div_add_mod n 10)

theorem readNat?_toDigits {n : ℕ} (h : n < 10 ^ numberLength) :
    readNat? (Nat.toDigits 10 n) = some n := by
  have hlength : (Nat.toDigits 10 n).length ≤ numberLength :=
    (Nat.length_toDigits_le_iff (by decide) (by decide)).mpr h
  have hsome : (Nat.toDigits 10 n).isEmpty = false := by simp [Nat.toDigits_ne_nil]
  rw [readNat?, hsome, if_neg (by simpa using hlength), foldlM_toDigits]

theorem all_isDigit_toDigits (n : ℕ) : (Nat.toDigits 10 n).all isDigit = true := by
  induction n using Nat.strongRecOn with
  | ind n ih =>
    have hdigit : ∀ d < 10, isDigit d.digitChar = true := fun d hd => by
      rw [isDigit, digitValue?_digitChar hd]
      rfl
    by_cases h : n < 10
    · simp [Nat.toDigits_of_lt_base h, hdigit n h]
    · rw [Nat.toDigits_of_base_le (by decide) (Nat.le_of_not_lt h), List.all_append,
        ih (n / 10) (by omega)]
      simp [hdigit (n % 10) (Nat.mod_lt _ (by decide))]

end Text

theorem afterStart_append (start cs : List Char) : afterStart start (start ++ cs) = some cs := by
  induction start with
  | nil => rfl
  | cons p ps ih => simpa [afterStart] using ih

/-- The number in the key of an argument is the number of the argument. -/
theorem argumentNumber_numbered {i : ℕ} (h : i < 10 ^ Text.numberLength) :
    argumentNumber ("arg" ++ toString i) = .ok i := by
  have hkey : ("arg" ++ toString i).toList = argumentStart ++ Nat.toDigits 10 i := by
    simp only [String.toList_append, Nat.toString_eq_ofList_toDigits, String.toList_ofList]
    rfl
  have hsome : (Nat.toDigits 10 i).isEmpty = false := by simp [Nat.toDigits_ne_nil]
  rw [argumentNumber, hkey, afterStart_append]
  simp only [hsome, Text.all_isDigit_toDigits, Text.readNat?_toDigits h]
  rfl

namespace Make

variable {args : List NodeRef} {i : ℕ}

theorem map_fst_numbered (i : ℕ) (args : List NodeRef) : (numbered i args).map Prod.fst =
    (List.range' i args.length).map fun j => "arg" ++ toString j := by
  induction args generalizing i with
  | nil => rfl
  | cons r rest ih => rw [numbered, List.map_cons, ih, List.length_cons, List.range'_succ, List.map_cons]

/-- The keys of a call of so many arguments are those of their numbers. -/
theorem exists_number {k : String} (h : i + args.length ≤ 10 ^ Text.numberLength)
    (hk : k ∈ (numbered i args).map Prod.fst) :
    ∃ j, k = "arg" ++ toString j ∧ argumentNumber k = .ok j := by
  rw [map_fst_numbered] at hk
  obtain ⟨j, hj, rfl⟩ := List.mem_map.mp hk
  rw [List.mem_range'_1] at hj
  exact ⟨j, rfl, argumentNumber_numbered (by omega)⟩

theorem argumentKeys_numbered (h : i + args.length ≤ 10 ^ Text.numberLength) :
    ArgumentKeys ((numbered i args).map Prod.fst) where
  numbered k hk :=
    have ⟨j, _, hj⟩ := exists_number h hk
    ⟨j, hj⟩
  distinct k hk k' hk' e := by
    obtain ⟨j, rfl, hj⟩ := exists_number h hk
    obtain ⟨j', rfl, hj'⟩ := exists_number h hk'
    rw [Except.ok.inj (hj.symm.trans (e.trans hj'))]

theorem pairwise_numbered (h : i + args.length ≤ 10 ^ Text.numberLength) :
    ((numbered i args).map Prod.fst).Pairwise ArgumentLess := by
  have hlt : (List.range' i args.length).Pairwise (· < ·) := List.pairwise_lt_range'
  rw [map_fst_numbered, List.pairwise_map]
  refine hlt.imp_of_mem fun {j k} hj hk hjk => ?_
  rw [List.mem_range'_1] at hj hk
  exact ⟨j, k, argumentNumber_numbered (by omega), argumentNumber_numbered (by omega), hjk⟩

theorem nodup_numbered (h : i + args.length ≤ 10 ^ Text.numberLength) :
    ((numbered i args).map Prod.fst).Nodup := by
  refine List.nodup_iff_pairwise_ne.mpr ((pairwise_numbered h).imp ?_)
  rintro k k' ⟨n, n', hn, hn', hlt⟩ rfl
  exact Nat.ne_of_lt hlt (Except.ok.inj (hn.symm.trans hn'))

/-- Pairs under the keys of a call are those of a call. -/
theorem eq_numbered {l : List (String × NodeRef)}
    (h : l.map Prod.fst = (numbered i args).map Prod.fst) : l = numbered i (l.map Prod.snd) := by
  induction l generalizing i args with
  | nil => rfl
  | cons p l ih =>
    cases args with
    | nil => cases h
    | cons r rest =>
      obtain ⟨hp, hl⟩ := List.cons.inj h
      rw [List.map_cons, numbered, ← ih hl]
      exact congrArg (· :: l) (Prod.ext hp rfl)

end Make

section Order

variable {args : List NodeRef} {keys : List String}

/-- The keys of a call are put in the order of the call. -/
theorem argumentOrder_of_perm (h : args.length ≤ 10 ^ Text.numberLength)
    (hkeys : keys.Perm ((Make.numbered 0 args).map Prod.fst)) :
    argumentOrder keys = .ok ((Make.numbered 0 args).map Prod.fst) := by
  rw [← Nat.zero_add args.length] at h
  have hcall := Make.argumentKeys_numbered h
  obtain ⟨sorted, hsorted⟩ := exists_argumentOrder fun k hk => hcall.numbered k (hkeys.mem_iff.mp hk)
  have hperm := (argumentOrder_perm hsorted).trans hkeys
  have hincreasing : ((Make.numbered 0 args).map Prod.fst).Pairwise ArgumentLe :=
    (Make.pairwise_numbered h).imp fun ⟨n, n', hn, hn', hlt⟩ => ⟨n, n', hn, hn', Nat.le_of_lt hlt⟩
  rw [hsorted, hperm.eq_of_pairwise (fun k k' hk hk' hle hle' => ?_)
    (argumentOrder_pairwise hsorted) hincreasing]
  exact hcall.distinct k (hperm.mem_iff.mp hk) k' hk' (hle.number_eq hle')

/-- What is found under names is what stands there. -/
theorem filterMap_get?_map_fst {α : Type} {m : Entries α} {l : List (String × α)}
    (h : ∀ p ∈ l, m.get? p.1 = some p.2) : (l.map Prod.fst).filterMap m.get? = l.map Prod.snd := by
  induction l with
  | nil => rfl
  | cons p rest ih =>
    obtain ⟨hp, hrest⟩ := List.forall_mem_cons.mp h
    rw [List.map_cons, List.filterMap_cons, hp, List.map_cons, ih hrest]

/-- The arguments of a call, in whatever order its entries come. -/
theorem Node.arguments_of_perm {n : Node} (h : n.children.toList.Perm (Make.numbered 0 args)) :
    n.arguments ((Make.numbered 0 args).map Prod.fst) = args := by
  rw [arguments, filterMap_get?_map_fst fun p hp =>
    Entries.get?_eq_some_iff.mpr (h.mem_iff.mpr hp), Make.map_snd_numbered]

end Order

end LiveTree
