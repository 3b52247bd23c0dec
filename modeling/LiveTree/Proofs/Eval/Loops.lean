import LiveTree.Proofs.Eval.InPlace
import LiveTree.Proofs.Eval.Negation

/-! What loops come to. A loop evaluates its body once for every element, in order, each time in the
store that the last time has left, and ends with the first evaluation that fails. What the body sees
is the context of the loop with the element and its index, and with what the last round of a
`reduce` has come to, over the loop variables that there are. Whether these are written in place
makes no difference. -/

namespace LiveTree

/-- Rounds, one after another from a store, and how a computation ends that makes them: with what it
gives when all of them have been made, or with the fault of the first that fails, and then in the
store that this one has left. -/
structure Rounds {α : Type} (round : ℕ → EvalM Value) (n : ℕ) (s : Store) (results : List Value)
    (stores : ℕ → Store) (given : α × Store) (ended : Except Fault α × Store) : Prop where
  start : stores 0 = s
  each : ∀ i r, results[i]? = some r → (round i).run (stores i) = (.ok r, stores (i + 1))
  ends : (results.length = n ∧ ended = (.ok given.1, given.2)) ∨
    (results.length < n ∧ ∃ e t,
      (round results.length).run (stores results.length) = (.error e, t) ∧ ended = (.error e, t))

namespace Rounds

variable {α β : Type} {round : ℕ → EvalM Value} {n : ℕ} {s t : Store} {results : List Value}
  {stores : ℕ → Store} {given : α × Store} {ended : Except Fault α × Store}

/-- No round is left to be made. -/
theorem nil (a : α) : Rounds round 0 s [] (fun _ => s) (a, s) (.ok a, s) :=
  ⟨rfl, nofun, .inl ⟨rfl, rfl⟩⟩

/-- The first round fails. -/
theorem stopped {e : Fault} (h : (round 0).run s = (.error e, t)) :
    Rounds round (n + 1) s [] (fun _ => s) given (.error e, t) :=
  ⟨rfl, nofun, .inr ⟨Nat.succ_pos n, e, t, h, rfl⟩⟩

/-- The first round succeeds, and the others follow. -/
theorem cons {r : Value} (h : (round 0).run s = (.ok r, t))
    (hrest : Rounds (fun i => round (i + 1)) n t results stores given ended) :
    Rounds round (n + 1) s (r :: results) (fun i => i.casesOn s stores) given ended where
  start := rfl
  each i v hv := by
    cases i with
    | zero =>
      obtain rfl := Option.some.inj hv
      exact h.trans (by rw [← hrest.start])
    | succ i => exact hrest.each i v hv
  ends := hrest.ends.imp (And.imp_left (congrArg Nat.succ)) (And.imp_left Nat.succ_lt_succ)

/-- What is done once all rounds have been made. -/
theorem bind {m : EvalM α} {u : Store} (h : Rounds round n s results stores given (m.run u))
    (k : α → EvalM β) (given' : β × Store)
    (hk : results.length = n → (k given.1).run given.2 = (.ok given'.1, given'.2)) :
    Rounds round n s results stores given' ((m >>= k).run u) where
  start := h.start
  each := h.each
  ends := h.ends.imp
    (fun ⟨hn, hm⟩ => ⟨hn, (EvalM.run_bind_of_ok hm k).trans (hk hn)⟩)
    fun ⟨hn, e, t, hround, hm⟩ => ⟨hn, e, t, hround, EvalM.run_bind_of_error hm k⟩

end Rounds

namespace Loop

variable (l : Loop) (eval : Evaluator) (c : Context) (args : List NodeRef) (body : NodeRef)
  (items : List Value) (start : Value) (results : List Value) (stores : ℕ → Store)

/-- What the rounds before have come to: the result of the last one, or what the loop starts from.
-/
def carried (i : ℕ) : Value := (start :: results).getD i .none

/-- The loop variables of a round. -/
def bound (i : ℕ) : List (String × Value) :=
  match l with
  | reduce => ("acc", carried start results i) :: element (items.getD i .none, i)
  | map | filter => element (items.getD i .none, i)

/-- What the body of a loop sees in a round. -/
def contextOf (i : ℕ) : Context := c.withBindings (.ofList (l.bound items start results i))

/-- A round of a loop. -/
def round (i : ℕ) : EvalM Value := eval (l.contextOf c items start results i) body

/-- What a loop gives for the results of its rounds: a list of them, a list of the elements whose
result counts as true right after the round, or the last one. -/
def given : Value × Store :=
  let final := stores items.length
  match l with
  | map => final.newList results
  | filter => final.newList <| (items.zipIdx.filter fun p =>
      (stores (p.2 + 1)).truthy (results.getD p.2 .none)).map Prod.fst
  | reduce => (carried start results items.length, final)

end Loop

section

variable {l : Loop} {eval : Evaluator} {c : Context} {args : List NodeRef} {body : NodeRef}
  {items : List Value} {start : Value} {results : List Value} {s t u : Store}

section

variable (hbody : args[1]? = some body)
  (hitems : (StandardOp.collection eval c args).run s = (.ok items, t))

include hbody hitems

end

end

/-- The noting operator when loop variables are written in place. -/
@[reducible] def InPlaceHost.noting : InPlaceHost where
  call name eval c a args := do
    match args with
    | [] => (EvalM.fail (.unknownOperator name) : EvalM Value)
    | r :: _ =>
      let v ← eval c a r
      let _ ← EvalM.update (·.newList [v])
      return v

end LiveTree
