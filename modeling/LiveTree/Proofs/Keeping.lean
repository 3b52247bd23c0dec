import Mathlib.Logic.Basic

/-! Operations that keep an invariant of their state, whether they fail or not. What has been done
when an operation fails stays done, so the invariant has to hold at every failure too. -/

namespace LiveTree

variable {ε σ α β : Type} {I : σ → Prop} {P : α → Prop} {Q : β → Prop}

section Running

variable {m : EStateM ε σ α} {x y : σ} {a : α} {e : ε}

theorem bind_of_ok (h : m x = .ok a y) (k : α → EStateM ε σ β) : (m >>= k) x = k a y := by
  show EStateM.bind m k x = _
  rw [EStateM.bind, h]

theorem bind_of_error (h : m x = .error e y) (k : α → EStateM ε σ β) :
    (m >>= k) x = .error e y := by
  show EStateM.bind m k x = _
  rw [EStateM.bind, h]

theorem tryCatch_of_ok (h : m x = .ok a y) (handler : ε → EStateM ε σ α) :
    tryCatch m handler x = .ok a y := by
  show EStateM.tryCatch m handler x = _
  delta EStateM.tryCatch
  rw [h]

theorem tryCatch_of_error (h : m x = .error e y) (handler : ε → EStateM ε σ α) :
    tryCatch m handler x = handler e y := by
  show EStateM.tryCatch m handler x = _
  delta EStateM.tryCatch
  rw [h]
  rfl

end Running

/-- Whether an operation keeps an invariant and gives only results of some sort. -/
def Keeps (I : σ → Prop) (m : EStateM ε σ α) (P : α → Prop) : Prop :=
  ∀ x, I x → match m x with
    | .ok a y => I y ∧ P a
    | .error _ y => I y

namespace Keeps

theorem ok {m : EStateM ε σ α} (h : Keeps I m P) {x y : σ} {a : α} (hx : I x)
    (hm : m x = .ok a y) : I y ∧ P a := by
  have := h x hx
  rwa [hm] at this

theorem error {m : EStateM ε σ α} (h : Keeps I m P) {x y : σ} {e : ε} (hx : I x)
    (hm : m x = .error e y) : I y := by
  have := h x hx
  rwa [hm] at this

theorem mono {m : EStateM ε σ α} {P' : α → Prop} (h : Keeps I m P) (hP : ∀ a, P a → P' a) :
    Keeps I m P' := by
  intro x hx
  have := h x hx
  cases hm : m x with
  | ok a y => rw [hm] at this; exact ⟨this.1, hP a this.2⟩
  | error e y => rw [hm] at this; exact this

theorem pure {a : α} (h : P a) : Keeps I (Pure.pure a : EStateM ε σ α) P := fun _ hx => ⟨hx, h⟩

theorem throw (e : ε) : Keeps I (MonadExcept.throw e : EStateM ε σ α) P := fun _ hx => hx

theorem bind {m : EStateM ε σ α} {k : α → EStateM ε σ β} (hm : Keeps I m P)
    (hk : ∀ a, P a → Keeps I (k a) Q) : Keeps I (m >>= k) Q := by
  intro x hx
  cases hmx : m x with
  | ok a y =>
    obtain ⟨hy, ha⟩ := hm.ok hx hmx
    rw [bind_of_ok hmx]
    exact hk a ha y hy
  | error e y =>
    rw [bind_of_error hmx]
    exact hm.error hx hmx

/-- An operation that succeeds may establish something stronger, for what goes on to keep. -/
theorem bind_stronger {m : EStateM ε σ α} {k : α → EStateM ε σ β}
    (h : ∀ x, I x → ∃ (J : σ → Prop) (a : α) (y : σ), m x = .ok a y ∧ J y ∧ Keeps J (k a) Q ∧
      ∀ z, J z → I z) : Keeps I (m >>= k) Q := by
  intro x hx
  obtain ⟨J, a, y, hmx, hy, hk, hJ⟩ := h x hx
  rw [bind_of_ok hmx]
  cases hkx : k a y with
  | ok b z =>
    obtain ⟨hz, hb⟩ := hk.ok hy hkx
    exact ⟨hJ z hz, hb⟩
  | error e z => exact hJ z (hk.error hy hkx)

theorem map {m : EStateM ε σ α} {f : α → β} (hm : Keeps I m P) (hf : ∀ a, P a → Q (f a)) :
    Keeps I (f <$> m) Q := by
  rw [map_eq_pure_bind]
  exact bind hm fun a ha => pure (hf a ha)

theorem tryCatch {m : EStateM ε σ α} {handler : ε → EStateM ε σ α} (hm : Keeps I m P)
    (hh : ∀ e, Keeps I (handler e) P) : Keeps I (MonadExcept.tryCatch m handler) P := by
  intro x hx
  cases hmx : m x with
  | ok a y =>
    rw [tryCatch_of_ok hmx]
    exact hm.ok hx hmx
  | error e y =>
    rw [tryCatch_of_error hmx]
    exact hh e y (hm.error hx hmx)

theorem get : Keeps I (MonadState.get : EStateM ε σ σ) I := fun _ hx => ⟨hx, hx⟩

theorem modifyGet {f : σ → α × σ} (hf : ∀ x, I x → I (f x).2 ∧ P (f x).1) :
    Keeps I (MonadState.modifyGet f : EStateM ε σ α) P := fun x hx => hf x hx

/-- An operation on each element of a list keeps what each of them keeps. -/
theorem mapM {f : α → EStateM ε σ β} {l : List α} (h : ∀ a ∈ l, Keeps I (f a) Q) :
    Keeps I (l.mapM f) fun bs => ∀ b ∈ bs, Q b := by
  induction l with
  | nil => exact .pure (by simp)
  | cons a rest ih =>
    rw [List.mapM_cons]
    refine .bind (h a List.mem_cons_self) fun b hb => ?_
    refine .bind (ih fun c hc => h c (List.mem_cons_of_mem _ hc)) fun bs hbs => ?_
    exact .pure (by simpa [hb] using hbs)

end Keeps

end LiveTree
