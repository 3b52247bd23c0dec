import LiveTree.Eval.Outcome

/-! Computations side by side. In each round every one of them has its turn, in order, up to where
it suspends. The first failure is the failure of all, but the others stay under way: nobody waits
for them, and what they do to the store still happens. -/

namespace LiveTree

namespace Aftermath

/-- Two things under way: after the turn of the first, the second has its turn. -/
def beside : Aftermath → (Store → Aftermath) → Aftermath
  | ended s, y => y s
  | ongoing s x, y =>
    match y s with
    | ended s => ongoing s x
    | ongoing s y => ongoing s fun s => (x s).beside y

end Aftermath

namespace Outcome

variable {α β : Type}

/-- What is under way when nobody waits for the result any more. -/
def aftermath : Outcome α → Aftermath
  | done _ s => .ended s
  | failed _ rest => rest
  | paused s resume => .ongoing s fun s => (resume s).aftermath

/-- Two computations side by side: after the turn of the first, the second has its turn. Of two
failures in one round the first counts. -/
def beside : Outcome α → (Store → Outcome β) → Outcome (α × β)
  | done a s, y => (y s).map fun b => (a, b)
  | failed e rest, y => failed e (rest.beside fun s => (y s).aftermath)
  | paused s x, y =>
    match y s with
    | done b s => paused s fun s => (x s).map fun a => (a, b)
    | failed e (.ended s) => failed e (.ongoing s fun s => (x s).aftermath)
    | failed e (.ongoing s rest) =>
      failed e (.ongoing s fun s => (x s).aftermath.beside rest)
    | paused s y => paused s fun s => (x s).beside y

/-- The same one round later. What a failure leaves under way goes on in that round. -/
def late : Outcome α → Outcome α
  | done a s => paused s fun s => done a s
  | failed e (.ended s) => paused s fun s => failed e (.ended s)
  | failed e (.ongoing s rest) => paused s fun s => failed e (rest s)
  | paused s resume => paused s fun s => (resume s).late

end Outcome

namespace EvalM

variable {α : Type}

/-- Computations side by side, with their values in order. -/
def abreast : List (EvalM α) → EvalM (List α)
  | [], s => .done [] s
  | m :: ms, s => ((m s).beside (abreast ms)).map fun p => p.1 :: p.2

/-- Starts computations in the next round and waits for all of them, or for the first failure. In
one round it is noticed that a computation has ended, and in the next the waiting one goes on. -/
def gather (ms : List (EvalM α)) : EvalM (List α) :=
  if ms.isEmpty then pure []
  else do
    pause
    fun s => (abreast ms s).late.late

@[simp] theorem abreast_nil (s : Store) : abreast ([] : List (EvalM α)) s = .done [] s := rfl

@[simp] theorem gather_nil : gather ([] : List (EvalM α)) = pure [] := rfl

end EvalM

end LiveTree
