import LiveTree.Fault
import LiveTree.Store

/-! Computations on a store that can fail and can suspend. A suspended computation hands the
store out and goes on from whatever store it is given back, so several computations can take
turns; one turn of each of them is a round. Failing keeps what was done to the store before. -/

namespace LiveTree

/-- What is still under way when nobody waits for its result any more. -/
inductive Aftermath where
  | ended (store : Store)
  | ongoing (store : Store) (resume : Store → Aftermath)

namespace Aftermath

/-- The store at the end of this round. -/
def store : Aftermath → Store
  | ended s => s
  | ongoing s _ => s

/-- Lets one more round go by. -/
def step : Aftermath → Aftermath
  | ended s => ended s
  | ongoing s resume => resume s

end Aftermath

/-- What a computation has come to. A failure can leave something under way. -/
inductive Outcome (α : Type) where
  | done (value : α) (store : Store)
  | failed (fault : Fault) (rest : Aftermath)
  | paused (store : Store) (resume : Store → Outcome α)

namespace Outcome

variable {α β γ : Type}

/-- An outcome in one round, from a result. -/
def ofExcept (s : Store) : Except Fault α → Outcome α
  | .ok a => done a s
  | .error e => failed e (.ended s)

/-- Goes on with the value. A failure is the failure of the whole. -/
def bind (k : α → Store → Outcome β) : Outcome α → Outcome β
  | done a s => k a s
  | failed e rest => failed e rest
  | paused s resume => paused s fun s' => (resume s').bind k

/-- Exchanges the value. -/
def map (f : α → β) (x : Outcome α) : Outcome β := x.bind fun a s => done (f a) s

/-- Exchanges faults. -/
def mapFault (f : Fault → Fault) : Outcome α → Outcome α
  | done a s => done a s
  | failed e rest => failed (f e) rest
  | paused s resume => paused s fun s' => (resume s').mapFault f

/-- Runs a computation to its end, resuming it at once whenever it suspends. What a failure leaves
under way has one more round, in which the failure is noticed. -/
def finish : Outcome α → Except Fault α × Store
  | done a s => (.ok a, s)
  | failed e rest => (.error e, rest.step.store)
  | paused s resume => (resume s).finish

theorem bind_done (x : Outcome α) : x.bind .done = x := by
  induction x with
  | done a s => rfl
  | failed e rest => rfl
  | paused s resume ih => exact congrArg (paused s) (funext ih)

theorem bind_assoc (x : Outcome α) (k : α → Store → Outcome β) (l : β → Store → Outcome γ) :
    (x.bind k).bind l = x.bind fun a s => (k a s).bind l := by
  induction x with
  | done a s => rfl
  | failed e rest => rfl
  | paused s resume ih => exact congrArg (paused s) (funext ih)

theorem mapFault_bind (x : Outcome α) (k : α → Store → Outcome β) (f : Fault → Fault) :
    (x.bind k).mapFault f = (x.mapFault f).bind fun a s => (k a s).mapFault f := by
  induction x with
  | done a s => rfl
  | failed e rest => rfl
  | paused s resume ih => exact congrArg (paused s) (funext ih)

theorem finish_bind (o : Outcome α) (k : α → Store → Outcome β) :
    (o.bind k).finish = match o.finish with
      | (.ok a, s) => (k a s).finish
      | (.error e, s) => (.error e, s) := by
  induction o with
  | done a s => rfl
  | failed e rest => rfl
  | paused s resume ih => exact ih s

end Outcome

/-- A computation on a store. -/
def EvalM (α : Type) : Type := Store → Outcome α

namespace EvalM

variable {α β : Type}

/-- A computation that only has a result. -/
protected def pure (a : α) : EvalM α := fun s => .done a s

/-- One computation after another; a fault skips the second. -/
protected def bind (m : EvalM α) (k : α → EvalM β) : EvalM β := fun s => (m s).bind k

instance : Monad EvalM where
  pure := EvalM.pure
  bind := EvalM.bind

/-- Fails. -/
def fail (e : Fault) : EvalM α := fun s => .failed e (.ended s)

/-- A result that may be a fault. -/
def ofExcept (r : Except Fault α) : EvalM α := fun s => .ofExcept s r

/-- Reads off the store. -/
def read (f : Store → α) : EvalM α := fun s => .done (f s) s

/-- Reads off the store, or fails. -/
def check (f : Store → Except Fault α) : EvalM α := fun s => .ofExcept s (f s)

/-- Changes the store. -/
def modify (f : Store → Store) : EvalM Unit := fun s => .done () (f s)

/-- Changes the store with a result, such as a new reference. -/
def update (f : Store → α × Store) : EvalM α := fun s =>
  let (a, s) := f s
  .done a s

/-- Changes the store with a result, or fails and leaves it. -/
def attempt (f : Store → Except Fault (α × Store)) : EvalM α := fun s =>
  match f s with
  | .ok (a, s) => .done a s
  | .error e => .failed e (.ended s)

/-- Suspends once. -/
def pause : EvalM Unit := fun s => .paused s fun s => .done () s

/-- Exchanges faults. -/
def mapFault (f : Fault → Fault) (m : EvalM α) : EvalM α := fun s => (m s).mapFault f

/-- Runs a computation to its end. -/
def run (m : EvalM α) (s : Store) : Except Fault α × Store := (m s).finish

instance : LawfulMonad EvalM :=
  .mk' EvalM (fun m => funext fun s => (m s).bind_done) (fun _ _ => rfl)
    fun m _ _ => funext fun s => (m s).bind_assoc _ _

@[simp] theorem pure_bind (a : α) (k : α → EvalM β) : EvalM.bind (EvalM.pure a) k = k a := rfl

theorem read_bind (f : Store → α) (k : α → EvalM β) (s : Store) :
    (EvalM.read f >>= k) s = k (f s) s := rfl

theorem ofExcept_ok_bind (a : α) (k : α → EvalM β) : (EvalM.ofExcept (.ok a) >>= k) = k a := rfl

theorem check_bind {f : Store → Except Fault α} {s : Store} {a : α} (h : f s = .ok a)
    (k : α → EvalM β) : (EvalM.check f >>= k) s = k a s := by
  show (Outcome.ofExcept s (f s)).bind k = _
  rw [h]
  rfl

theorem mapFault_bind (m : EvalM α) (k : α → EvalM β) (f : Fault → Fault) :
    (m >>= k).mapFault f = m.mapFault f >>= fun a => (k a).mapFault f :=
  funext fun s => (m s).mapFault_bind k f

/-- Running one computation after another. -/
theorem run_bind (m : EvalM α) (k : α → EvalM β) (s : Store) :
    (m >>= k).run s = match m.run s with
      | (.ok a, t) => (k a).run t
      | (.error e, t) => (.error e, t) := (m s).finish_bind k

theorem run_bind_of_ok {m : EvalM α} {s t : Store} {a : α} (h : m.run s = (.ok a, t))
    (k : α → EvalM β) : (m >>= k).run s = (k a).run t := by
  rw [run_bind, h]

theorem run_bind_of_error {m : EvalM α} {s t : Store} {e : Fault} (h : m.run s = (.error e, t))
    (k : α → EvalM β) : (m >>= k).run s = (.error e, t) := by
  rw [run_bind, h]

end EvalM

end LiveTree
