import LiveTree.Proofs.Runs.Habits

/-! Evaluations with operators of a host program. A host may make an operator fail in any way, also
because it keeps a wrapper that has been destroyed; nothing else in an evaluation does. So if the
host's operators never fail like that on evaluators that do not, no evaluation does, in whatever
context and however often it suspends. -/

namespace LiveTree

variable {α β : Type}

/-- Whether a computation, if it fails at all, fails for another reason than that a wrapper has been
destroyed, whatever store it is given back when it suspends. -/
inductive Outcome.Tame : Outcome α → Prop
  | done (a : α) (s : Store) : Tame (.done a s)
  | failed {e : Fault} (h : e.Tame) (rest : Aftermath) : Tame (.failed e rest)
  | paused (s : Store) {resume : Store → Outcome α} (h : ∀ s, Tame (resume s)) :
    Tame (.paused s resume)

namespace Outcome.Tame

theorem bind {x : Outcome α} (h : x.Tame) {k : α → Store → Outcome β}
    (hk : ∀ a s, (k a s).Tame) : (x.bind k).Tame := by
  induction h with
  | done a s => exact hk a s
  | failed h rest => exact .failed h rest
  | paused s _ ih => exact .paused s ih

theorem mapFault {x : Outcome α} (h : x.Tame) {f : Fault → Fault}
    (hf : ∀ e, Fault.Tame e → (f e).Tame) : (x.mapFault f).Tame := by
  induction h with
  | done a s => exact .done a s
  | failed h rest => exact .failed (hf _ h) rest
  | paused s _ ih => exact .paused s ih

theorem finish {x : Outcome α} (h : x.Tame) : LiveTree.Tame x.finish.1 := by
  induction h with
  | done a s => exact .ok a
  | failed h rest => exact .error h
  | paused s _ ih => exact ih s

end Outcome.Tame

/-- Whether a computation never fails because a wrapper has been destroyed. -/
def EvalM.Tame (m : EvalM α) : Prop := ∀ s, (m s).Tame

/-- Whether no evaluation of an evaluator does. -/
def Evaluator.Tame (eval : Evaluator) : Prop := ∀ c r, (eval c r).Tame

/-- Whether no operator of the host does on an evaluator that never does. -/
def Host.Tame (host : Host) : Prop :=
  ∀ name eval, Evaluator.Tame eval → ∀ c args, (host.call name eval c args).Tame

theorem EvalM.habit_tame : EvalM.Habit fun m => m.Tame := by
  refine .of_attempts (fun a s => .done a s) (fun {α f} htame _ s => ?_)
    (fun hm hk s => (hm s).bind hk) fun hm s => (hm s).mapFault fun e he => ?_
  · rw [EvalM.attempt]
    cases e : f s with
    | ok p => exact .done p.1 p.2
    | error fault => exact .failed (htame s fault e) (.ended s)
  · unfold Fault.orTooDeep
    split
    exacts [by rintro _ ⟨⟩, he]

/-- An evaluation never fails because a wrapper has been destroyed, unless an operator of the host
does. -/
theorem evaluate_tame [host : Host] (hhost : host.Tame) : Evaluator.Tame evaluate :=
  EvalM.habit_tame.evaluate hhost

end LiveTree
