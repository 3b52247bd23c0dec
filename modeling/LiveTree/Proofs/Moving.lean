import LiveTree.Proofs.Keeping
import Mathlib.Order.Defs.Unbundled

/-! Runs that go from a state only to states that come after it in some order. What one run does is
looked at where it starts, so what comes next may go by what has been found by then. -/

namespace LiveTree

variable {ε σ α β : Type}

/-- The state in which a run has ended, whether it has failed or not. -/
def finalState : EStateM.Result ε σ α → σ
  | .ok _ y => y
  | .error _ y => y

/-- Whether the run of an operation from a state ends in a state that comes after it. -/
def Moves (R : σ → σ → Prop) (m : EStateM ε σ α) (x : σ) : Prop := R x (finalState (m x))

namespace Moves

variable {R : σ → σ → Prop} {m : EStateM ε σ α} {x y : σ} {a : α} {e : ε}

theorem ok (h : Moves R m x) (hm : m x = .ok a y) : R x y := by
  rwa [Moves, hm] at h

theorem error (h : Moves R m x) (hm : m x = .error e y) : R x y := by
  rwa [Moves, hm] at h

theorem modifyGet {f : σ → α × σ} (h : R x (f x).2) :
    Moves R (MonadState.modifyGet f : EStateM ε σ α) x := h

/-- Looking at the state leaves it. -/
theorem get_bind {k : σ → EStateM ε σ β} (h : Moves R (k x) x) :
    Moves R (MonadState.get >>= k) x := h

variable [IsPreorder σ R]

theorem pure (a : α) : Moves R (Pure.pure a : EStateM ε σ α) x := refl_of R x

theorem throw (e : ε) : Moves R (MonadExcept.throw e : EStateM ε σ α) x := refl_of R x

theorem bind {k : α → EStateM ε σ β} (hm : Moves R m x)
    (hk : ∀ a y, m x = .ok a y → R x y → Moves R (k a) y) : Moves R (m >>= k) x := by
  cases hmx : m x with
  | ok a y =>
    have hy := hm.ok hmx
    rw [Moves, bind_of_ok hmx]
    exact trans_of R hy (hk a y hmx hy)
  | error e y =>
    rw [Moves, bind_of_error hmx]
    exact hm.error hmx

theorem tryCatch {handler : ε → EStateM ε σ α} (hm : Moves R m x)
    (hh : ∀ e y, m x = .error e y → R x y → Moves R (handler e) y) :
    Moves R (MonadExcept.tryCatch m handler) x := by
  cases hmx : m x with
  | ok a y =>
    rw [Moves, tryCatch_of_ok hmx]
    exact hm.ok hmx
  | error e y =>
    have hy := hm.error hmx
    rw [Moves, tryCatch_of_error hmx]
    exact trans_of R hy (hh e y hmx hy)

end Moves

end LiveTree
