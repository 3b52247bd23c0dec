import LiveTree.Proofs.Reads.Everywhere

/-! Sweeps of a subtree: all constraints on all of its paths are checked one after another, each on
the store that the one before has left, whatever its operators do there. What a sweep finds is one
failure for each constraint that does not hold. Validation of a subtree is a sweep, and its report
lists what the sweep has found. -/

namespace LiveTree

variable {σ : Type}

/-! ### Constraints of a node -/

namespace Seat

section

variable [Host] (p : Seat)

/-- Whether checking some constraints at a seat one after another raises nothing, finds certain ones
to fail, each with its words, and leaves a store. -/
inductive Checks : List (String × NodeRef) → Store → List (String × String) → Store → Prop
  | nil (s : Store) : Checks [] s [] s
  | holds {key : String} {rule : NodeRef} {rest : List (String × NodeRef)} {s t u : Store}
    {found : List (String × String)} (h : (p.constraint key).run s = (.ok true, t))
    (hrest : Checks rest t found u) : Checks ((key, rule) :: rest) s found u
  | fails {key words : String} {rule : NodeRef} {rest : List (String × NodeRef)} {s t u v : Store}
    {found : List (String × String)} (h : (p.constraint key).run s = (.ok false, t))
    (hwords : (p.message key rule).run t = (.ok words, u)) (hrest : Checks rest u found v) :
    Checks ((key, rule) :: rest) s ((key, words) :: found) v

end

variable [Host] {p : Seat} {l : List (String × NodeRef)} {s t : Store}
  {found : List (String × String)}

/-- A constraint fails at most once. -/
theorem Checks.sublist (h : p.Checks l s found t) :
    (found.map Prod.fst).Sublist (l.map Prod.fst) := by
  induction h with
  | nil => exact .slnil
  | holds _ _ ih => exact ih.cons _
  | fails _ _ _ ih => exact ih.cons_cons _

/-- Whether checking all constraints at the seats of some paths one after another raises nothing,
finds certain failures, each with its path, its constraint and its words, and leaves a store. -/
inductive Sweeps (seat : Path → Option Seat) :
    List Path → Store → List (Path × String × String) → Store → Prop
  | nil (s : Store) : Sweeps seat [] s [] s
  | cons {path : Path} {rest : List Path} {p : Seat} {s t u : Store}
    {found : List (String × String)} {more : List (Path × String × String)}
    (hseat : seat path = some p) (h : p.Checks (s.node p.node).constraints.toList s found t)
    (hrest : Sweeps seat rest t more u) :
    Sweeps seat (path :: rest) s (found.map (path, ·) ++ more) u

end Seat

namespace Seat.Sweeps

variable [Host] {seat : Path → Option Seat} {paths : List Path} {s t : Store}
  {failures : List (Path × String × String)}

theorem path_mem (h : Sweeps seat paths s failures t) : ∀ e ∈ failures, e.1 ∈ paths := by
  induction h with
  | nil => nofun
  | cons _ _ _ ih =>
    refine List.forall_mem_append.mpr ⟨?_, fun e he => List.mem_cons_of_mem _ (ih e he)⟩
    rw [List.forall_mem_map]
    exact fun _ _ => List.mem_cons_self

/-- A sweep of different paths finds each constraint of each node to fail at most once. -/
theorem nodup (h : Sweeps seat paths s failures t) (hpaths : paths.Nodup) :
    (failures.map fun e => (e.1, e.2.1)).Nodup := by
  induction h with
  | nil => exact List.nodup_nil
  | @cons path rest p s t u found more _ hchecks hrest ih =>
    obtain ⟨hpath, hpaths⟩ := List.nodup_cons.mp hpaths
    have hkeys : (found.map Prod.fst).Nodup :=
      hchecks.sublist.nodup (s.node p.node).constraints.nodup
    have hfirst : ((found.map (path, ·)).map fun e => (e.1, e.2.1)) =
        (found.map Prod.fst).map (path, ·) := by simp
    rw [List.map_append, hfirst]
    refine List.nodup_append.mpr ⟨hkeys.map (Prod.mk_right_injective path), ih hpaths, ?_⟩
    rintro _ ha _ hb rfl
    obtain ⟨key, -, rfl⟩ := List.mem_map.mp ha
    obtain ⟨e, he, hsame⟩ := List.mem_map.mp hb
    exact hpath ((Prod.mk.inj hsame).1 ▸ hrest.path_mem e he)

end Seat.Sweeps

/-! ### The report -/

/-- The failures that are found at some paths, one after another. -/
def listed (l : List (Path × Failures)) : List (Path × String × String) :=
  l.flatMap fun e => e.2.toList.map (e.1, ·)

namespace TreeM

variable [Host] {z y : World σ} {w : WrapperRef} {seat : Path → Option Seat} {s : Store}

variable {l : List (WrapperRef × Path)} (hl : ∀ e ∈ l,
  seat e.2 = some (z.forest.seat e.1) ∧ (z.forest.wrapper e.1).destroyed = false)

include hl

end TreeM

/-! ### Validation of a subtree -/

section Subtree

variable [Host] {x : World σ} {w : WrapperRef}

end Subtree

end LiveTree
