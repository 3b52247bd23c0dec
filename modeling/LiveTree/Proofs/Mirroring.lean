import LiveTree.Proofs.Keeping

/-! Two operations side by side. One mirrors the other when from related states they either both
succeed with the same result or both fail in the same way, and leave related states. What relates
the states may depend on the result, and may be another relation when they fail. -/

namespace LiveTree

variable {ε σ τ α β : Type}

/-- Whether two operations, started in states related by `I`, have the same result in states related
by `J`, or the same failure in states related by `E`. -/
def Mirrors (I : σ → τ → Prop) (m : EStateM ε σ α) (m' : EStateM ε τ α) (J : α → σ → τ → Prop)
    (E : σ → τ → Prop) : Prop :=
  ∀ x y, I x y → match m x, m' y with
    | .ok a x', .ok b y' => a = b ∧ J a x' y'
    | .error e x', .error e' y' => e = e' ∧ E x' y'
    | _, _ => False

namespace Mirrors

variable {I I' E F : σ → τ → Prop} {J J' : α → σ → τ → Prop} {K : β → σ → τ → Prop}
variable {m : EStateM ε σ α} {m' : EStateM ε τ α} {x x' : σ} {y : τ}

theorem ok (h : Mirrors I m m' J E) (hx : I x y) {a : α} (hm : m x = .ok a x') :
    ∃ y', m' y = .ok a y' ∧ J a x' y' := by
  have hxy := h x y hx
  rw [hm] at hxy
  cases hm' : m' y with
  | ok b y' =>
    rw [hm'] at hxy
    obtain ⟨rfl, hJ⟩ := hxy
    exact ⟨y', rfl, hJ⟩
  | error e y' =>
    rw [hm'] at hxy
    exact hxy.elim

theorem error (h : Mirrors I m m' J E) (hx : I x y) {e : ε} (hm : m x = .error e x') :
    ∃ y', m' y = .error e y' ∧ E x' y' := by
  have hxy := h x y hx
  rw [hm] at hxy
  cases hm' : m' y with
  | ok b y' =>
    rw [hm'] at hxy
    exact hxy.elim
  | error e' y' =>
    rw [hm'] at hxy
    obtain ⟨rfl, hE⟩ := hxy
    exact ⟨y', rfl, hE⟩

/-- What two operations do from each pair of related states is enough. -/
theorem of_cases (h : ∀ x y, I x y →
    (∃ a x' y', m x = .ok a x' ∧ m' y = .ok a y' ∧ J a x' y') ∨
    ∃ e x' y', m x = .error e x' ∧ m' y = .error e y' ∧ E x' y') : Mirrors I m m' J E := by
  intro x y hx
  rcases h x y hx with ⟨a, x', y', hm, hm', hJ⟩ | ⟨e, x', y', hm, hm', hE⟩ <;> rw [hm, hm']
  · exact ⟨rfl, hJ⟩
  · exact ⟨rfl, hE⟩

theorem mono (h : Mirrors I m m' J E) (hI : ∀ x y, I' x y → I x y)
    (hJ : ∀ a x y, J a x y → J' a x y) (hE : ∀ x y, E x y → F x y) : Mirrors I' m m' J' F := by
  refine of_cases fun x y hx => ?_
  cases hm : m x with
  | ok a x' =>
    obtain ⟨y', hm', hj⟩ := h.ok (hI x y hx) hm
    exact .inl ⟨a, x', y', rfl, hm', hJ a x' y' hj⟩
  | error e x' =>
    obtain ⟨y', hm', he⟩ := h.error (hI x y hx) hm
    exact .inr ⟨e, x', y', rfl, hm', hE x' y' he⟩

theorem pure {a : α} (h : ∀ x y, I x y → J a x y) :
    Mirrors I (Pure.pure a : EStateM ε σ α) (Pure.pure a) J E := fun x y hx => ⟨rfl, h x y hx⟩

theorem throw (e : ε) (h : ∀ x y, I x y → E x y) :
    Mirrors I (MonadExcept.throw e : EStateM ε σ α) (MonadExcept.throw e) J E :=
  fun x y hx => ⟨rfl, h x y hx⟩

theorem bind {k : α → EStateM ε σ β} {k' : α → EStateM ε τ β} (hm : Mirrors I m m' J E)
    (hk : ∀ a, Mirrors (J a) (k a) (k' a) K E) : Mirrors I (m >>= k) (m' >>= k') K E := by
  intro x y hx
  cases hmx : m x with
  | ok a x' =>
    obtain ⟨y', hmy, hj⟩ := hm.ok hx hmx
    rw [bind_of_ok hmx, bind_of_ok hmy]
    exact hk a x' y' hj
  | error e x' =>
    obtain ⟨y', hmy, he⟩ := hm.error hx hmx
    rw [bind_of_error hmx, bind_of_error hmy]
    exact ⟨rfl, he⟩

end Mirrors

end LiveTree
