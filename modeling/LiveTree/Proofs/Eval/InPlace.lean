import LiveTree.Eval.Evaluate
import LiveTree.Proofs.Eval.Landing
import LiveTree.Proofs.Eval.Plans
import Mathlib.Data.List.Basic

/-! Loop variables that are written in place. A loop copies the loop variables that there are into a
frame of its own, writes its variables there anew for every element, and hands the frame to its body
each time. Inner loops, and references that evaluate other nodes, share the frames of the outer
ones. This evaluation comes to the same, suspensions and faults included, as the one in which every
element has a context of its own, and in the end the frames are as they were. The operators of the
host have to keep no reference to the frame that they are given: what they do with it has to be what
they would do with its content. -/

namespace LiveTree

/-! ### Writing over -/

namespace Entries

variable {α : Type} {m : Entries α} {k j : String} {v w : α}

theorem put_put (k : String) (v w : α) (l : List (String × α)) :
    put k w (put k v l) = put k w l := by
  induction l with
  | nil => simp [put]
  | cons p rest ih =>
    obtain ⟨k', v'⟩ := p
    by_cases h : k' = k <;> simp [put, h, ih]

/-- A name that is there can be written before or after another. -/
theorem put_comm (h : j ≠ k) {l : List (String × α)} (hk : k ∈ l.map Prod.fst) :
    put k v (put j w l) = put j w (put k v l) := by
  induction l with
  | nil => cases hk
  | cons p rest ih =>
    obtain ⟨k', v'⟩ := p
    by_cases hk' : k' = k
    · subst hk'
      simp [put, h.symm]
    · have hrest : k ∈ rest.map Prod.fst := (List.mem_cons.mp hk).resolve_left (Ne.symm hk')
      by_cases hj : k' = j
      · subst hj
        simp [put, hk']
      · simp [put, hk', hj, ih hrest]

theorem insert_insert (m : Entries α) (k : String) (v w : α) :
    (m.insert k v).insert k w = m.insert k w := by
  rw [insert, mk.injEq]
  exact put_put k v w m.toList

theorem insertAll_insert {l : List (String × α)} (hk : k ∈ m.keys) (hl : k ∉ l.map Prod.fst) :
    (m.insertAll l).insert k v = (m.insert k v).insertAll l := by
  induction l generalizing m with
  | nil => rfl
  | cons p rest ih =>
    obtain ⟨hne, hrest⟩ := not_or.mp (mt List.mem_cons.mpr hl)
    have hswap : (m.insert p.1 p.2).insert k v = (m.insert k v).insert p.1 p.2 := by
      rw [insert, mk.injEq]
      exact put_comm (Ne.symm hne) hk
    have hstep := ih (m := m.insert p.1 p.2) (mem_keys_put.mpr (.inr hk)) hrest
    rw [hswap] at hstep
    exact hstep

/-- Writing the same names once more leaves nothing of the first time. -/
theorem insertAll_insertAll {l l' : List (String × α)} (hkeys : l'.map Prod.fst = l.map Prod.fst)
    (hl : (l.map Prod.fst).Nodup) : (m.insertAll l).insertAll l' = m.insertAll l' := by
  induction l generalizing m l' with
  | nil =>
    rw [List.map_eq_nil_iff.mp hkeys]
    rfl
  | cons p rest ih =>
    cases l' with
    | nil => cases hkeys
    | cons q rest' =>
      obtain ⟨k, v⟩ := p
      obtain ⟨k', w⟩ := q
      obtain ⟨rfl, hrest⟩ := List.cons.inj hkeys
      obtain ⟨hnot, hnodup⟩ := List.nodup_cons.mp hl
      have hfirst : ((m.insert k' v).insertAll rest).insert k' w =
          (m.insert k' w).insertAll rest := by
        rw [insertAll_insert (mem_keys_put.mpr (.inl rfl)) hnot, insert_insert]
      show (((m.insert k' v).insertAll rest).insert k' w).insertAll rest' = _
      rw [hfirst, ih hrest hnodup]
      rfl

end Entries

/-! ### Frames -/

/-- The loop variables that are in use, a frame for each loop, the innermost last. -/
abbrev Frames : Type := List (Entries Value)

/-- The loop variables in a frame, if there is one. -/
def Frames.bindings (fs : Frames) (a : Option ℕ) : Option (Entries Value) := a.bind (fs[·]?)

/-- A computation that also reads and writes frames. -/
abbrev FrameM : Type → Type := StateT Frames EvalM

namespace FrameM

/-- The loop variables in a frame as they are now. -/
def bindings (a : Option ℕ) : FrameM (Option (Entries Value)) :=
  modifyGet fun fs : Frames => (fs.bindings a, fs)

/-- Writes loop variables in place, one after another. -/
def write (i : ℕ) : List (String × Value) → FrameM Unit
  | [] => return ()
  | p :: rest => do
    modify fun fs => fs.modify i (·.insert p.1 p.2)
    write i rest

end FrameM

/-- Evaluates a node in a context whose loop variables are those in a frame. -/
abbrev InPlaceEvaluator : Type := Context → Option ℕ → NodeRef → FrameM Value

/-- The operators of a host program when loop variables are written in place. -/
class InPlaceHost where
  call : String → InPlaceEvaluator → Context → Option ℕ → List NodeRef → FrameM Value

/-- The context with other loop variables. -/
def Context.seeing (c : Context) (bindings : Option (Entries Value)) : Context :=
  { c with bindings }

/-! ### Evaluation in place -/

/-- The loop variables for an element of a collection. -/
def Loop.element (p : Value × ℕ) : List (String × Value) :=
  [("item", p.1), ("index", .int p.2)]

section

variable (eval : InPlaceEvaluator) (c : Context) (a : Option ℕ) (args : List NodeRef)

end

/-- Whether a computation does the same from some frames as one without frames, and leaves them as
they were. -/
def FrameM.Matches {α : Type} (fs : Frames) (m' : FrameM α) (m : EvalM α) : Prop :=
  m' fs = (·, fs) <$> m

/-- What is done after a computation that turns some frames into others. -/
theorem FrameM.bind_of_eq {α β : Type} {fs gs : Frames} {m' : FrameM α} {m : EvalM α}
    (h : m' fs = (·, gs) <$> m) (k' : α → FrameM β) :
    (m' >>= k') fs = m >>= fun x => k' x gs := by
  show m' fs >>= (fun p => k' p.1 p.2) = _
  rw [h, bind_map_left]

namespace FrameM.Matches

variable {α β : Type} {fs : Frames} {m' : FrameM α} {m : EvalM α}

theorem pure (x : α) : Matches fs (Pure.pure x) (Pure.pure x) := rfl

theorem bind {k' : α → FrameM β} {k : α → EvalM β} (hm : Matches fs m' m)
    (hk : ∀ x, Matches fs (k' x) (k x)) : Matches fs (m' >>= k') (m >>= k) := by
  rw [Matches, bind_of_eq hm, map_bind]
  exact bind_congr hk

end FrameM.Matches

/-- Whether an evaluator in place does what one does that has the loop variables by value. -/
def InPlaceEvaluator.Matches (eval' : InPlaceEvaluator) (eval : Evaluator) : Prop :=
  ∀ c a r fs, FrameM.Matches fs (eval' c a r) (eval (c.seeing (Frames.bindings fs a)) r)

section

variable {eval' : InPlaceEvaluator} {eval : Evaluator} {c : Context} {a : Option ℕ}
  {args : List NodeRef} {fs : Frames}

/-- Whether the loop variables with some names can be written over in a frame as if the frame were
as it was when it was opened. -/
def RewritesTo (names : List String) (base b : Entries Value) : Prop :=
  ∀ vars : List (String × Value), vars.map Prod.fst = names → b.insertAll vars = base.insertAll vars

theorem RewritesTo.insertAll {names : List String} {base b : Entries Value}
    (h : RewritesTo names base b) (hnames : names.Nodup) {vars : List (String × Value)}
    (hvars : vars.map Prod.fst = names) : RewritesTo names base (b.insertAll vars) := by
  intro vars' hvars'
  rw [Entries.insertAll_insertAll (hvars'.trans hvars.symm) (hvars ▸ hnames), h vars' hvars']

section

variable {α β : Type} {P : Entries Value → Prop} {b : Entries Value}

end

end

end LiveTree
