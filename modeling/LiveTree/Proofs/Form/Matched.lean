import LiveTree.Form.Same
import LiveTree.Proofs.Form.Alike
import Mathlib.Data.List.Perm.Subperm
import Mathlib.Logic.Relation

/-! Maps that match: they have the same names, in any order, with related values under them. Checks
that compare lists and maps value by value decide that they match, if the check of two values
decides whether they are related. -/

namespace LiveTree

open Store

variable {α β γ ε : Type}

namespace Entries

/-- Whether two lists of pairs have the same names, and what is found under them is related. -/
structure Matched (R : α → β → Prop) (l : List (String × α)) (l' : List (String × β)) : Prop where
  names : ∀ k, (find k l).isSome = (find k l').isSome
  related : ∀ {k x y}, find k l = some x → find k l' = some y → R x y

variable {R : α → β → Prop} {l : List (String × α)} {l' : List (String × β)}

namespace Matched

theorem exists_right (h : Matched R l l') {k : String} {x : α} (hx : find k l = some x) :
    ∃ y, find k l' = some y ∧ R x y := by
  obtain ⟨y, hy⟩ := Option.isSome_iff_exists.mp ((h.names k).symm.trans (by rw [hx]; rfl))
  exact ⟨y, hy, h.related hx hy⟩

/-- What is found is read the same, if related things read the same. -/
theorem bind_find_eq (h : Matched R l l') {f : α → Option γ} {g : β → Option γ}
    (hfg : ∀ x y, R x y → f x = g y) (k : String) : (find k l).bind f = (find k l').bind g := by
  cases hx : find k l with
  | none =>
    have hk := h.names k
    rw [hx] at hk
    rw [Option.not_isSome_iff_eq_none.mp (ne_true_of_eq_false hk.symm)]
    rfl
  | some x =>
    obtain ⟨y, hy, hxy⟩ := h.exists_right hx
    rw [hy]
    exact hfg x y hxy

theorem isEmpty_eq (h : Matched R l l') : l.isEmpty = l'.isEmpty := by
  have hfind : ∀ {δ : Type} (p : String × δ) (m : List (String × δ)), find p.1 (p :: m) = some p.2 :=
    fun p m => by simp [find]
  cases l with
  | nil =>
    cases l' with
    | nil => rfl
    | cons q m =>
      have hq := h.names q.1
      rw [hfind q m] at hq
      cases hq
  | cons p m =>
    cases l' with
    | nil =>
      have hp := h.names p.1
      rw [hfind p m] at hp
      cases hp
    | cons q m' => rfl

theorem flip (h : Matched R l l') : Matched (fun y x => R x y) l' l :=
  ⟨fun k => (h.names k).symm, fun hy hx => h.related hx hy⟩

theorem imp {S : α → β → Prop} (h : Matched R l l')
    (hRS : ∀ p ∈ l, ∀ q ∈ l', R p.2 q.2 → S p.2 q.2) : Matched S l l' :=
  ⟨h.names, fun hx hy =>
    hRS _ (mem_of_find_eq_some hx) _ (mem_of_find_eq_some hy) (h.related hx hy)⟩

theorem trans {S : β → γ → Prop} {l'' : List (String × γ)} (h : Matched R l l')
    (h' : Matched S l' l'') : Matched (Relation.Comp R S) l l'' where
  names k := (h.names k).trans (h'.names k)
  related hx hz :=
    have ⟨y, hy, hxy⟩ := h.exists_right hx
    ⟨y, hxy, h'.related hy hz⟩

end Matched

/-- Lists that match piece by piece match as a whole. -/
theorem Matched.append {m : List (String × α)} {m' : List (String × β)} (h : Matched R l l')
    (hm : Matched R m m') : Matched R (l ++ m) (l' ++ m') := by
  refine ⟨fun k => ?_, fun {k x y} hx hy => ?_⟩
  · rw [find_append, find_append, Option.isSome_or, Option.isSome_or, h.names k, hm.names k]
  · rw [find_append] at hx hy
    cases hl : find k l with
    | some a =>
      obtain ⟨b, hb, hab⟩ := h.exists_right hl
      rw [hl] at hx
      rw [hb] at hy
      cases hx
      cases hy
      exact hab
    | none =>
      have hk := h.names k
      rw [hl] at hk hx
      rw [Option.not_isSome_iff_eq_none.mp (ne_true_of_eq_false hk.symm)] at hy
      exact hm.related hx hy

/-- Pairs that are partners one by one match. -/
theorem matched_of_forall₂ (h : List.Forall₂ (fun p q => q.1 = p.1 ∧ R p.2 q.2) l l') :
    Matched R l l' := by
  induction h with
  | nil => exact ⟨fun _ => rfl, nofun⟩
  | @cons p q _ _ hpq _ ih =>
    obtain ⟨k', x⟩ := p
    obtain ⟨_, y⟩ := q
    obtain ⟨rfl, hxy⟩ := hpq
    refine ⟨fun k => ?_, fun {k a b} ha hb => ?_⟩
    · rw [find, find]
      split
      · rfl
      · exact ih.names k
    · rw [find] at ha hb
      split at ha
      · rename_i hk
        rw [if_pos hk] at hb
        cases ha
        cases hb
        exact hxy
      · rename_i hk
        rw [if_neg hk] at hb
        exact ih.related ha hb

theorem matched_map_iff {δ : Type} {f : γ → α} {g : δ → β} {a : Entries γ} {b : Entries δ} :
    Matched R (a.map f).toList (b.map g).toList ↔
      Matched (fun x y => R (f x) (g y)) a.toList b.toList := by
  have ha : ∀ k, find k (a.map f).toList = (find k a.toList).map f := a.get?_map f
  have hb : ∀ k, find k (b.map g).toList = (find k b.toList).map g := b.get?_map g
  constructor
  · intro h
    refine ⟨fun k => ?_, fun hx hy => h.related (by rw [ha, hx]; rfl) (by rw [hb, hy]; rfl)⟩
    have hk := h.names k
    rwa [ha, hb, Option.isSome_map, Option.isSome_map] at hk
  · intro h
    refine ⟨fun k => ?_, fun {k x y} hx hy => ?_⟩
    · rw [ha, hb, Option.isSome_map, Option.isSome_map]
      exact h.names k
    · rw [ha, Option.map_eq_some_iff] at hx
      rw [hb, Option.map_eq_some_iff] at hy
      obtain ⟨x, hx, rfl⟩ := hx
      obtain ⟨y, hy, rfl⟩ := hy
      exact h.related hx hy

theorem mem_keys_iff {m : Entries α} {k : String} : k ∈ m.keys ↔ m.contains k = true := by
  refine ⟨contains_of_mem_keys, fun h => ?_⟩
  obtain ⟨v, hv⟩ := Option.isSome_iff_exists.mp h
  exact List.mem_map_of_mem (f := Prod.fst) (get?_eq_some_iff.mp hv)

theorem sameNames_iff {a : Entries α} {b : Entries β} :
    sameNames a b = true ↔ ∀ k, a.contains k = b.contains k := by
  rw [sameNames, Bool.and_eq_true, decide_eq_true_iff, List.all_eq_true]
  have hlength : ∀ {δ : Type} (m : Entries δ), m.size = m.keys.length := fun m => by
    simp [size, keys]
  rw [hlength, hlength]
  constructor
  · rintro ⟨hsize, hsub⟩ k
    have hperm := (List.subperm_of_subset a.nodup fun k hk =>
      mem_keys_iff.mpr (hsub k hk)).perm_of_length_le (Nat.le_of_eq hsize.symm)
    exact Bool.eq_iff_iff.mpr (mem_keys_iff.symm.trans (hperm.mem_iff.trans mem_keys_iff))
  · intro h
    have hmem : ∀ k, k ∈ a.keys ↔ k ∈ b.keys := fun k => by
      rw [mem_keys_iff, mem_keys_iff, h k]
    exact ⟨((List.perm_ext_iff_of_nodup a.nodup b.nodup).mpr hmem).length_eq,
      fun k hk => mem_keys_iff.mp ((hmem k).mp hk)⟩

end Entries

/-! ### Checks that decide -/

/-- Whether a check gives an answer, which is yes just if a condition holds. -/
def Decides (r : Except ε Bool) (p : Prop) : Prop := ∃ b, r = .ok b ∧ (b = true ↔ p)

namespace Decides

variable {r k : Except ε Bool} {p q : Prop}

theorem yes (h : p) : Decides (.ok true : Except ε Bool) p := ⟨true, rfl, by simpa⟩

theorem no (h : ¬ p) : Decides (.ok false : Except ε Bool) p := ⟨false, rfl, by simpa⟩

theorem congr (h : Decides r p) (hpq : p ↔ q) : Decides r q :=
  have ⟨b, hr, hb⟩ := h
  ⟨b, hr, hb.trans hpq⟩

theorem eq_true_iff (h : Decides r p) : r = .ok true ↔ p := by
  obtain ⟨b, rfl, hb⟩ := h
  rw [Except.ok.injEq]
  exact hb

/-- Checks that decide the same give the same. -/
theorem eq_of_iff {r' : Except ε Bool} (h : Decides r p) (h' : Decides r' q) (hpq : p ↔ q) :
    r = r' := by
  obtain ⟨b, rfl, hb⟩ := h
  obtain ⟨b', rfl, hb'⟩ := h'
  rw [Bool.eq_iff_iff.mpr (hb.trans (hpq.trans hb'.symm))]

/-- A check that is made only if a first one says yes. -/
theorem and (hr : Decides r p) (hk : p → Decides k q) :
    Decides (do if ← r then k else return false) (p ∧ q) := by
  obtain ⟨b, rfl, hb⟩ := hr
  cases b with
  | true =>
    obtain ⟨c, hc, hcq⟩ := hk (hb.mp rfl)
    exact ⟨c, hc, hcq.trans (and_iff_right (hb.mp rfl)).symm⟩
  | false => exact ⟨false, rfl, iff_of_false nofun fun h => nomatch hb.mpr h.1⟩

end Decides

section Checks

variable {same : Value → Value → Except Fault Bool} {P : Value → Value → Prop}

theorem allSame_decides {xs ys : List Value}
    (h : ∀ x ∈ xs, ∀ y ∈ ys, Decides (same x y) (P x y)) :
    Decides (allSame same xs ys) (List.Forall₂ P xs ys) := by
  induction xs generalizing ys with
  | nil =>
    cases ys with
    | nil => exact .yes .nil
    | cons y ys => exact .no nofun
  | cons x xs ih =>
    cases ys with
    | nil => exact .no nofun
    | cons y ys =>
      have hrest := ih fun a ha b hb => h a (List.mem_cons_of_mem _ ha) b (List.mem_cons_of_mem _ hb)
      exact ((h x List.mem_cons_self y List.mem_cons_self).and fun _ => hrest).congr
        List.forall₂_cons.symm

theorem entriesSame_decides {other : Entries Value} {l : List (String × Value)}
    (h : ∀ p ∈ l, Decides (same p.2 ((other.get? p.1).getD .none))
      (P p.2 ((other.get? p.1).getD .none))) :
    Decides (entriesSame same other l) (∀ p ∈ l, P p.2 ((other.get? p.1).getD .none)) := by
  induction l with
  | nil => exact .yes (by simp)
  | cons p rest ih =>
    obtain ⟨hfirst, hrest⟩ := List.forall_mem_cons.mp h
    rw [List.forall_mem_cons]
    exact hfirst.and fun _ => ih hrest

/-- Comparing maps decides whether they match. -/
theorem mapsSame_decides {a b : Entries Value}
    (h : ∀ x ∈ a.values, ∀ y ∈ b.values, Decides (same x y) (P x y)) :
    Decides (mapsSame same a b) (Entries.Matched P a.toList b.toList) := by
  rw [mapsSame]
  split
  · rename_i hnames
    rw [Entries.sameNames_iff] at hnames
    have hother : ∀ p ∈ a.toList, ∃ y, b.get? p.1 = some y := fun p hp => by
      have hp' : a.contains p.1 = true := by
        rw [Entries.contains, Entries.get?_eq_some_iff.mpr hp]
        rfl
      exact Option.isSome_iff_exists.mp ((hnames p.1).symm.trans hp')
    have hentries : Decides (entriesSame same b a.toList) (∀ p ∈ a.toList, P p.2
        ((b.get? p.1).getD .none)) := entriesSame_decides fun p hp => by
      obtain ⟨y, hy⟩ := hother p hp
      rw [hy]
      exact h p.2 (List.mem_map_of_mem hp) y (Entries.mem_values_of_get? hy)
    refine hentries.congr ⟨fun hall => ⟨hnames, fun {k x y} hx hy => ?_⟩, fun hmatch p hp => ?_⟩
    · have hxy := hall _ (Entries.mem_of_find_eq_some hx)
      rwa [show b.get? k = some y from hy] at hxy
    · obtain ⟨y, hy⟩ := hother p hp
      rw [hy]
      exact hmatch.related (Entries.get?_eq_some_iff.mpr hp) hy
  · rename_i hnames
    exact .no fun hmatch => hnames (Entries.sameNames_iff.mpr hmatch.names)

/-- Comparing the maps of two nodes decides whether they match, role by role. -/
theorem rolesSame_decides {a b : Node}
    (h : ∀ role, ∀ x ∈ (a.entries role).values, ∀ y ∈ (b.entries role).values,
      Decides (same (.node x) (.node y)) (P (.node x) (.node y))) (roles : List Role) :
    Decides (rolesSame same a b roles) (∀ role ∈ roles, Entries.Matched (fun x y =>
      P (.node x) (.node y)) (a.entries role).toList (b.entries role).toList) := by
  have hmap : ∀ role, Decides (mapsSame same ((a.entries role).map .node)
      ((b.entries role).map .node)) (Entries.Matched (fun x y => P (.node x) (.node y))
        (a.entries role).toList (b.entries role).toList) := by
    intro role
    refine (mapsSame_decides fun x hx y hy => ?_).congr Entries.matched_map_iff
    rw [Entries.values_map, List.mem_map] at hx hy
    obtain ⟨x, hx, rfl⟩ := hx
    obtain ⟨y, hy, rfl⟩ := hy
    exact h role x hx y hy
  induction roles with
  | nil => exact .yes (by simp)
  | cons role rest ih =>
    rw [List.forall_mem_cons]
    exact (hmap role).and fun _ => ih

end Checks

end LiveTree
