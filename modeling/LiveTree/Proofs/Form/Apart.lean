import LiveTree.Proofs.Store.WellFormed
import Mathlib.Data.List.Nodup

/-! Places and cells. A place is the way down to a value, part by part. What is made one after the
other is apart: no cell of the one is a cell of the other. If what stands below a value has been made
like that, no cell of it stands at two places. Tuples do not count, since copies share them. -/

namespace LiveTree

namespace Store

variable {s t : Store} {v w : Value} {n : ℕ}

/-- The value at a place, which says by number which part is gone into, from a value down. -/
def place (s : Store) : List ℕ → Value → Option Value
  | [], v => some v
  | i :: rest, v => (s.parts v)[i]? >>= place s rest

theorem place_cons_eq_some_iff {i : ℕ} {p : List ℕ} :
    s.place (i :: p) v = some w ↔ ∃ u, (s.parts v)[i]? = some u ∧ s.place p u = some w :=
  Option.bind_eq_some_iff

theorem place_append {p q : List ℕ} {u : Value} (hp : s.place p v = some u) :
    s.place (p ++ q) v = s.place q u := by
  induction p generalizing v with
  | nil =>
    cases hp
    rfl
  | cons i rest ih =>
    obtain ⟨a, ha, hrest⟩ := place_cons_eq_some_iff.mp hp
    rw [List.cons_append, place, ha]
    exact ih hrest

theorem place_snoc {p : List ℕ} {u : Value} (hp : s.place p v = some u) (i : ℕ) :
    s.place (p ++ [i]) v = (s.parts u)[i]? := by
  rw [place_append hp, place]
  exact Option.bind_fun_some _

/-- What stands at a place is reached. -/
theorem reaches_of_place {p : List ℕ} (h : s.place p v = some w) : Reaches s.parts v w := by
  induction p generalizing v with
  | nil =>
    cases h
    exact .refl _
  | cons i rest ih =>
    obtain ⟨u, hu, hrest⟩ := place_cons_eq_some_iff.mp h
    exact (ih hrest).of_below (List.mem_of_getElem? hu)

/-- What is reached stands at some place. -/
theorem exists_place (h : Reaches s.parts v w) : ∃ p, s.place p v = some w := by
  refine h.closed (P := fun w => ∃ p, s.place p v = some w) ⟨[], rfl⟩ fun u _ ⟨p, hp⟩ x hx => ?_
  obtain ⟨i, hi⟩ := List.mem_iff_getElem?.mp hx
  exact ⟨p ++ [i], (place_snoc hp i).trans hi⟩

/-- The lists, dictionaries and nodes at and below a value, to a given depth, each as often as there
are places where it stands. -/
def censusTo (s : Store) : ℕ → Value → List Value
  | 0, _ => []
  | n + 1, v =>
    match v with
    | .list _ | .dict _ | .node _ => v :: (s.parts v).flatMap (censusTo s n)
    | _ => []

theorem censusTo_succ (s : Store) (n : ℕ) (hcell : v.cell?.isSome)
    (htuple : ∀ a, v ≠ .tuple a) :
    s.censusTo (n + 1) v = v :: (s.parts v).flatMap (s.censusTo n) := by
  cases v with
  | tuple a => exact absurd rfl (htuple a)
  | list | dict | node => rfl
  | _ => cases hcell

theorem mem_censusTo (hn : EndsWithin s.parts n v) (htuples : ∀ a, ¬ Reaches s.parts v (.tuple a))
    {p : List ℕ} (hp : s.place p v = some w) (hw : w.cell?.isSome) : w ∈ s.censusTo n v := by
  induction n generalizing v p with
  | zero => exact hn.elim
  | succ n ih =>
    cases p with
    | nil =>
      obtain rfl := Option.some.inj hp
      rw [censusTo_succ s n hw fun a e => htuples a (e ▸ .refl v)]
      exact List.mem_cons_self
    | cons i rest =>
      obtain ⟨u, hu, hrest⟩ := place_cons_eq_some_iff.mp hp
      have hmem := List.mem_of_getElem? hu
      have hcell : v.cell?.isSome := by
        cases hv : v.cell? with
        | some _ => rfl
        | none => rw [parts_of_cell?_eq_none s hv] at hmem; cases hmem
      rw [censusTo_succ s n hcell fun a e => htuples a (e ▸ .refl v)]
      exact List.mem_cons_of_mem _ (List.mem_flatMap.mpr
        ⟨u, hmem, ih (hn u hmem) (fun a ha => htuples a (ha.of_below hmem)) hrest⟩)

/-- What is counted once stands at one place. -/
theorem place_injective (hn : EndsWithin s.parts n v)
    (htuples : ∀ a, ¬ Reaches s.parts v (.tuple a)) (hnodup : (s.censusTo n v).Nodup)
    {p q : List ℕ} (hp : s.place p v = some w) (hq : s.place q v = some w) (hw : w.cell?.isSome) :
    p = q := by
  induction n generalizing v p q with
  | zero => exact hn.elim
  | succ n ih =>
    have hbelow : ∀ {i : ℕ} {u : Value}, (s.parts v)[i]? = some u →
        EndsWithin s.parts n u ∧ ∀ a, ¬ Reaches s.parts u (.tuple a) := fun hu =>
      have hmem := List.mem_of_getElem? hu
      ⟨hn _ hmem, fun a ha => htuples a (ha.of_below hmem)⟩
    have hcensus : ∀ {i : ℕ} {u : Value} {p : List ℕ}, (s.parts v)[i]? = some u →
        s.place p u = some w → w ∈ s.censusTo n u := fun hu hp =>
      mem_censusTo (hbelow hu).1 (hbelow hu).2 hp hw
    have hcell : ∀ {i : ℕ} {u : Value}, (s.parts v)[i]? = some u → v.cell?.isSome := fun hu => by
      cases hv : v.cell? with
      | some _ => rfl
      | none => rw [parts_of_cell?_eq_none s hv] at hu; cases hu
    -- the value itself is counted apart from what is below it
    have hself : ∀ {i : ℕ} {u : Value} {p : List ℕ}, (s.parts v)[i]? = some u →
        s.place p u = some w → v ≠ w := fun {i u p} hu hp e => by
      rw [censusTo_succ s n (hcell hu) fun a e => htuples a (e ▸ .refl v)] at hnodup
      exact (List.nodup_cons.mp hnodup).1
        (List.mem_flatMap.mpr ⟨u, List.mem_of_getElem? hu, e ▸ hcensus hu hp⟩)
    cases p with
    | nil =>
      cases q with
      | nil => rfl
      | cons j q =>
        obtain ⟨u, hu, hrest⟩ := place_cons_eq_some_iff.mp hq
        exact absurd (Option.some.inj hp) (hself hu hrest)
    | cons i p =>
      obtain ⟨a, ha, hp⟩ := place_cons_eq_some_iff.mp hp
      cases q with
      | nil => exact absurd (Option.some.inj hq) (hself ha hp)
      | cons j q =>
        obtain ⟨b, hb, hq⟩ := place_cons_eq_some_iff.mp hq
        rw [censusTo_succ s n (hcell ha) fun a e => htuples a (e ▸ .refl v)] at hnodup
        obtain ⟨hnodups, hapart⟩ := List.nodup_flatMap.mp (List.nodup_cons.mp hnodup).2
        obtain ⟨hi, rfl⟩ := List.getElem?_eq_some_iff.mp ha
        obtain ⟨hj, rfl⟩ := List.getElem?_eq_some_iff.mp hb
        have hij : i = j := by
          rw [List.pairwise_iff_getElem] at hapart
          rcases Nat.lt_trichotomy i j with hlt | heq | hlt
          · exact absurd (hcensus hb hq) (hapart i j hi hj hlt (hcensus ha hp))
          · exact heq
          · exact absurd (hcensus ha hp) (hapart j i hj hi hlt (hcensus hb hq))
        subst hij
        exact congrArg _ (ih (hbelow ha).1 (hbelow ha).2 (hnodups _ (List.getElem_mem hi)) hp hq)

end Store

/-! ### Apart -/

open Store

/-- Whether cells that are counted in a later store have come after an earlier one, each counted once,
and are counted in the same way from then on. -/
structure Apart (s : Store) (census : Store → List Value) (t : Store) : Prop where
  nodup : (census t).Nodup
  between : ∀ u ∈ census t, s.Between t u
  settled : ∀ t', t.Extends t' → census t' = census t

namespace Apart

variable {s s₁ t : Store} {A B : Store → List Value} {v : Value}

theorem nil : Apart s (fun _ => []) t := ⟨.nil, nofun, fun _ _ => rfl⟩

theorem congr (h : Apart s A t) (hAB : ∀ t', t.Extends t' → B t' = A t') : Apart s B t where
  nodup := hAB t .refl ▸ h.nodup
  between := hAB t .refl ▸ h.between
  settled t' ht := by rw [hAB t' ht, hAB t .refl, h.settled t' ht]

theorem earlier (h : Apart s₁ A t) (hs : s.Extends s₁) : Apart s A t where
  nodup := h.nodup
  between u hu := ⟨fun hold => (h.between u hu).1 (hs.has hold), (h.between u hu).2⟩
  settled := h.settled

/-- What was counted when a store was reached is in it. -/
theorem has (h : ∀ t, s₁.Extends t → Apart s A t) (ht : s₁.Extends t) : ∀ u ∈ A t, s₁.Has u :=
  fun u hu => by
    rw [(h s₁ .refl).settled t ht] at hu
    exact ((h s₁ .refl).between u hu).2

/-- What is made one after the other. -/
theorem append (hs : s.Extends s₁) (hA : ∀ t, s₁.Extends t → Apart s A t) (hB : Apart s₁ B t)
    (ht : s₁.Extends t) : Apart s (fun t => A t ++ B t) t where
  nodup := List.nodup_append.mpr ⟨(hA t ht).nodup, hB.nodup, fun u hu u' hu' e =>
    (hB.between u' hu').1 (e ▸ has hA ht u hu)⟩
  between u hu := by
    rcases List.mem_append.mp hu with hu | hu
    · exact (hA t ht).between u hu
    · exact ⟨fun h => (hB.between u hu).1 (hs.has h), (hB.between u hu).2⟩
  settled t' ht' := by rw [(hA t ht).settled t' ht', hB.settled t' ht']

/-- A cell that is made for what has been made before. -/
theorem cons (hs : s.Extends s₁) (hA : ∀ t, s₁.Extends t → Apart s A t) (hv : s₁.Between t v)
    (ht : s₁.Extends t) : Apart s (fun t => v :: A t) t where
  nodup := List.nodup_cons.mpr ⟨fun hmem => hv.1 (has hA ht v hmem), (hA t ht).nodup⟩
  between := List.forall_mem_cons.mpr ⟨⟨fun h => hv.1 (hs.has h), hv.2⟩, (hA t ht).between⟩
  settled t' ht' := by rw [(hA t ht).settled t' ht']

end Apart

end LiveTree
