import LiveTree.Eval.Arguments
import Mathlib.Data.List.Basic

/-! The order of argument keys. The keys come out by increasing number, and an order that was worked
out from other keys agrees with the order of these on the keys that both have. -/

namespace LiveTree

variable {keys old sorted kept : List String}

/-- Whether keys are those of arguments with different numbers. -/
structure ArgumentKeys (keys : List String) : Prop where
  numbered : ∀ k ∈ keys, ∃ n, argumentNumber k = .ok n
  distinct : ∀ k ∈ keys, ∀ k' ∈ keys, argumentNumber k = argumentNumber k' → k = k'

/-- Whether the number of an argument key is less than that of another. -/
def ArgumentLess (k k' : String) : Prop :=
  ∃ n n', argumentNumber k = .ok n ∧ argumentNumber k' = .ok n' ∧ n < n'

/-- Whether the number of an argument key is at most that of another. -/
def ArgumentLe (k k' : String) : Prop :=
  ∃ n n', argumentNumber k = .ok n ∧ argumentNumber k' = .ok n' ∧ n ≤ n'

theorem ArgumentLe.number_eq {k k' : String} (h : ArgumentLe k k') (h' : ArgumentLe k' k) :
    argumentNumber k = argumentNumber k' := by
  obtain ⟨n, n', hn, hn', hle⟩ := h
  obtain ⟨m', m, hm', hm, hle'⟩ := h'
  obtain rfl : n' = m' := Except.ok.inj (hn'.symm.trans hm')
  obtain rfl : n = m := Except.ok.inj (hn.symm.trans hm)
  rw [hn, hn', Nat.le_antisymm hle hle']

/-- Each key is read with its number, as long as all of them have one. -/
theorem numbers_cases (keys : List String) :
    (∃ l : List (Nat × String), (keys.mapM fun key => do return (← argumentNumber key, key)) = .ok l ∧
      l.map Prod.snd = keys ∧ ∀ p ∈ l, argumentNumber p.2 = .ok p.1) ∨
    ∃ e, (keys.mapM fun key => do return (← argumentNumber key, key)) = .error e ∧
      ∃ k ∈ keys, argumentNumber k = .error e := by
  induction keys with
  | nil => exact .inl ⟨[], rfl, rfl, fun _ hp => nomatch hp⟩
  | cons key rest ih =>
    rw [List.mapM_cons]
    cases hkey : argumentNumber key with
    | error e => exact .inr ⟨e, rfl, key, List.mem_cons_self, hkey⟩
    | ok n =>
      rcases ih with ⟨l, hl, hkeys, hnumbers⟩ | ⟨e, he, k, hk, hfault⟩
      · rw [hl]
        refine .inl ⟨(n, key) :: l, rfl, ?_, List.forall_mem_cons.mpr ⟨hkey, hnumbers⟩⟩
        rw [List.map_cons, hkeys]
      · rw [he]
        exact .inr ⟨e, rfl, k, List.mem_cons_of_mem _ hk, hfault⟩

theorem exists_argumentOrder (h : ∀ k ∈ keys, ∃ n, argumentNumber k = .ok n) :
    ∃ sorted, argumentOrder keys = .ok sorted := by
  rcases numbers_cases keys with ⟨l, hl, -⟩ | ⟨e, -, k, hk, hfault⟩
  · exact ⟨_, by rw [argumentOrder, hl]; rfl⟩
  · obtain ⟨n, hn⟩ := h k hk
    cases hn.symm.trans hfault

/-- Putting keys in order keeps them all. -/
theorem argumentOrder_perm (h : argumentOrder keys = .ok sorted) : sorted.Perm keys := by
  rw [argumentOrder] at h
  rcases numbers_cases keys with ⟨l, hl, hkeys, -⟩ | ⟨e, he, -⟩
  · rw [hl] at h
    cases h
    have hperm := (List.mergeSort_perm l fun a b => decide (a.1 ≤ b.1)).map Prod.snd
    rwa [hkeys] at hperm
  · rw [he] at h
    cases h

theorem argumentOrder_pairwise (h : argumentOrder keys = .ok sorted) :
    sorted.Pairwise ArgumentLe := by
  rw [argumentOrder] at h
  rcases numbers_cases keys with ⟨l, hl, -, hnumbers⟩ | ⟨e, he, -⟩
  · rw [hl] at h
    cases h
    have hsorted := @List.pairwise_mergeSort _ (fun a b : Nat × String => decide (a.1 ≤ b.1))
      (fun a b c hab hbc => by simp only [decide_eq_true_eq] at hab hbc ⊢; omega)
      (fun a b => by simp only [Bool.or_eq_true, decide_eq_true_eq]; omega) l
    refine List.pairwise_map.mpr (hsorted.imp_of_mem fun {p q} hp hq hpq => ?_)
    exact ⟨p.1, q.1, hnumbers p (List.mem_mergeSort.mp hp), hnumbers q (List.mem_mergeSort.mp hq),
      of_decide_eq_true hpq⟩
  · rw [he] at h
    cases h

/-- The numbers of different argument keys come out increasing. -/
theorem ArgumentKeys.pairwise_less (hkeys : ArgumentKeys keys) (hnodup : keys.Nodup)
    (h : argumentOrder keys = .ok sorted) : sorted.Pairwise ArgumentLess := by
  have hperm := argumentOrder_perm h
  have hdiffer := List.nodup_iff_pairwise_ne.mp (hperm.nodup_iff.mpr hnodup)
  refine ((argumentOrder_pairwise h).and hdiffer).imp_of_mem fun {k k'} hk hk' hle => ?_
  obtain ⟨⟨n, n', hn, hn', hnn'⟩, hne⟩ := hle
  refine ⟨n, n', hn, hn', Nat.lt_of_le_of_ne hnn' fun e => hne ?_⟩
  exact hkeys.distinct k (hperm.mem_iff.mp hk) k' (hperm.mem_iff.mp hk') (by rw [hn, hn', e])

/-- An order kept from earlier and the order of the keys that there are now agree on the keys that
both have. -/
theorem ArgumentKeys.filter_kept (hkeys : ArgumentKeys keys) (hnodup : keys.Nodup)
    (hold : old.Nodup) (hkept : argumentOrder old = .ok kept)
    (hsorted : argumentOrder keys = .ok sorted) :
    kept.filter (· ∈ keys) = sorted.filter (· ∈ old) := by
  have hpermKept := argumentOrder_perm hkept
  have hpermSorted := argumentOrder_perm hsorted
  have hmem : ∀ k, k ∈ kept.filter (· ∈ keys) ↔ k ∈ sorted.filter (· ∈ old) := by
    intro k
    simp only [List.mem_filter, decide_eq_true_eq, hpermKept.mem_iff, hpermSorted.mem_iff]
    exact and_comm
  refine @List.Perm.eq_of_pairwise _ ArgumentLe _ _ (fun k k' hk hk' hle hle' => ?_)
    ((argumentOrder_pairwise hkept).filter _) ((argumentOrder_pairwise hsorted).filter _)
    ((List.perm_ext_iff_of_nodup ?_ ?_).mpr hmem)
  · have hpresent : k ∈ keys := of_decide_eq_true (List.mem_filter.mp hk).2
    have hpresent' : k' ∈ keys := hpermSorted.mem_iff.mp (List.mem_filter.mp hk').1
    exact hkeys.distinct k hpresent k' hpresent' (hle.number_eq hle')
  · exact (hpermKept.nodup_iff.mpr hold).filter _
  · exact (hpermSorted.nodup_iff.mpr hnodup).filter _

namespace Node

variable (n : Node)

/-- Keys under which there is no child make no difference to the arguments. -/
theorem arguments_filter (keys : List String) :
    n.arguments (keys.filter (· ∈ n.children.keys)) = n.arguments keys := by
  induction keys with
  | nil => rfl
  | cons key rest ih =>
    by_cases h : key ∈ n.children.keys
    · rw [List.filter_cons_of_pos (by simpa using h), arguments, arguments, List.filterMap_cons,
        List.filterMap_cons, ← arguments, ← arguments, ih]
    · rw [List.filter_cons_of_neg (by simpa using h), ih, arguments, arguments,
        List.filterMap_cons, show n.children.get? key = none from Entries.find_eq_none h]

/-- The arguments under keys of children are these children, one for each key. -/
theorem forall₂_arguments {keys : List String} (h : ∀ k ∈ keys, k ∈ n.children.keys) :
    List.Forall₂ (fun k r => n.children.get? k = some r) keys (n.arguments keys) := by
  induction keys with
  | nil => exact .nil
  | cons key rest ih =>
    obtain ⟨r, hr⟩ := Option.isSome_iff_exists.mp
      (Entries.contains_of_mem_keys (h key List.mem_cons_self))
    rw [arguments, List.filterMap_cons, hr]
    exact .cons hr (ih fun k hk => h k (List.mem_cons_of_mem _ hk))

end Node

end LiveTree
