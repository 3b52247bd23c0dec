import LiveTree.Proofs.Runs.Habits
import LiveTree.Proofs.Store.Developing

/-! Evaluations and the store. Evaluating makes no node of itself. If the operators of the host
develop the store at most, with evaluators that do, so does every evaluation, however often it
suspends, whatever has become of the store by the time that it goes on, and also with what a failure
leaves under way. -/

namespace LiveTree

variable {α β : Type} {s t : Store}

/-- Whether what is under way develops the store in each of its rounds. -/
inductive Aftermath.Develops : Store → Aftermath → Prop
  | ended {s t : Store} (h : s.Develops t) : Develops s (.ended t)
  | ongoing {s t : Store} (h : s.Develops t) {resume : Store → Aftermath}
    (hresume : ∀ u, t.Develops u → Develops u (resume u)) : Develops s (.ongoing t resume)

/-- Whether a computation from a store has developed it so far, and goes on to develop what it is
given back. -/
inductive Outcome.Develops : Store → Outcome α → Prop
  | done {s t : Store} (a : α) (h : s.Develops t) : Develops s (.done a t)
  | failed {s : Store} (e : Fault) {rest : Aftermath} (h : rest.Develops s) :
    Develops s (.failed e rest)
  | paused {s t : Store} (h : s.Develops t) {resume : Store → Outcome α}
    (hresume : ∀ u, t.Develops u → Develops u (resume u)) : Develops s (.paused t resume)

theorem Aftermath.Develops.store {x : Aftermath} (h : x.Develops s) : s.Develops x.store := by
  cases h with
  | ended h => exact h
  | ongoing h _ => exact h

theorem Aftermath.Develops.step {x : Aftermath} (h : x.Develops s) : s.Develops x.step.store := by
  cases h with
  | ended h => exact h
  | ongoing h hresume => exact h.trans (hresume _ .refl).store

namespace Outcome.Develops

variable {x : Outcome α}

/-- What a computation from a later store does is done to an earlier one. -/
theorem after (h : s.Develops t) (hx : x.Develops t) : x.Develops s := by
  cases hx with
  | done a h' => exact .done a (h.trans h')
  | failed e hrest =>
    cases hrest with
    | ended h' => exact .failed e (.ended (h.trans h'))
    | ongoing h' hresume => exact .failed e (.ongoing (h.trans h') hresume)
  | paused h' hresume => exact .paused (h.trans h') hresume

theorem bind (h : x.Develops s) {k : α → Store → Outcome β}
    (hk : ∀ a t, s.Develops t → (k a t).Develops t) : (x.bind k).Develops s := by
  induction h with
  | done a h => exact (hk a _ h).after h
  | failed e h => exact .failed e h
  | paused h _ ih =>
    exact .paused h fun u hu => ih u hu fun a t ht => hk a t ((h.trans hu).trans ht)

theorem mapFault (h : x.Develops s) (f : Fault → Fault) : (x.mapFault f).Develops s := by
  induction h with
  | done a h => exact .done a h
  | failed e h => exact .failed (f e) h
  | paused h _ ih => exact .paused h ih

theorem finish (h : x.Develops s) : s.Develops x.finish.2 := by
  induction h with
  | done a h => exact h
  | failed e h => exact h.step
  | paused h _ ih => exact h.trans (ih _ .refl)

end Outcome.Develops

/-- Whether a computation develops each store in order. -/
def EvalM.Develops (m : EvalM α) : Prop := ∀ s : Store, s.Orderly → (m s).Develops s

/-- Whether every operator of the host does, with evaluators that do. -/
def Host.Develops (host : Host) : Prop :=
  ∀ name eval, (∀ c r, EvalM.Develops (eval c r)) → ∀ c args, (host.call name eval c args).Develops

theorem EvalM.habit_develops : EvalM.Habit fun m => m.Develops := by
  refine .of_attempts (fun a s _ => .done a .refl) (fun {α f} _ hnodes s _ => ?_)
    (fun hm hk s hs => (hm s hs).bind fun a t ht => hk a t (ht.orderly hs))
    fun hm s hs => (hm s hs).mapFault _
  rw [EvalM.attempt]
  cases e : f s with
  | ok p => exact .done p.1 (.of_nodes (hnodes s p.1 p.2 e))
  | error fault => exact .failed fault (.ended .refl)

/-- Every evaluation develops the store, if the operators of the host do. -/
theorem evaluate_develops [host : Host] (hhost : host.Develops) (c : Context) (r : NodeRef) :
    EvalM.Develops (evaluate c r) := EvalM.habit_develops.evaluate hhost c r

end LiveTree
