import LiveTree.Proofs.Eval.Paths
import LiveTree.Proofs.Runs.Single

/-! Calm computations. With standard operators an evaluation comes to an end, and if it succeeds it
has made the store later and left its nodes as they were. So does whatever is made of evaluations
and of looking things up. -/

namespace LiveTree

variable {α β : Type} {s t : Store}

/-- Whether a computation from a store has come to an end, and without having changed nodes if it
has succeeded. -/
inductive Outcome.Calm (s : Store) : Outcome α → Prop
  | done {a : α} {t : Store} (h : s.Later t) (hn : t.nodes = s.nodes) : Calm s (.done a t)
  | failed {e : Fault} {t : Store} : Calm s (.failed e (.ended t))

theorem EvalM.bind_eq_done {m : EvalM α} {k : α → EvalM β} {s t : Store} {b : β}
    (h : (m >>= k) s = .done b t) : ∃ a u, m s = .done a u ∧ k a u = .done b t := by
  have h : (m s).bind k = .done b t := h
  cases hm : m s with
  | done a u => exact ⟨a, u, rfl, by rw [hm] at h; exact h⟩
  | failed e rest => rw [hm] at h; cases h
  | paused u resume => rw [hm] at h; cases h

theorem EvalM.bind_of_done {m : EvalM α} {s t : Store} {a : α} (h : m s = .done a t)
    (k : α → EvalM β) : (m >>= k) s = k a t := by
  show (m s).bind k = _
  rw [h]
  rfl

theorem EvalM.bind_of_failed {m : EvalM α} {s : Store} {e : Fault} {rest : Aftermath}
    (h : m s = .failed e rest) (k : α → EvalM β) : (m >>= k) s = .failed e rest := by
  show (m s).bind k = _
  rw [h]
  rfl

/-- Whether a computation comes to an end on every store, and leaves its nodes as they are. -/
def EvalM.Calm (m : EvalM α) : Prop := ∀ s, (m s).Calm s

namespace EvalM.Calm

theorem pure (a : α) : (Pure.pure a : EvalM α).Calm := fun s => .done (.refl s) rfl

theorem fail (e : Fault) : (EvalM.fail e : EvalM α).Calm := fun _ => .failed

theorem read (f : Store → α) : (EvalM.read f).Calm := fun s => .done (.refl s) rfl

theorem check (f : Store → Except Fault α) : (EvalM.check f).Calm := by
  intro s
  rw [EvalM.check]
  cases f s with
  | ok a => exact .done (.refl s) rfl
  | error e => exact .failed

theorem update {f : Store → α × Store} (h : ∀ s, s.Later (f s).2 ∧ (f s).2.nodes = s.nodes) :
    (EvalM.update f).Calm := fun s => .done (h s).1 (h s).2

theorem bind {m : EvalM α} {k : α → EvalM β} (hm : m.Calm) (hk : ∀ a, (k a).Calm) :
    (m >>= k).Calm := by
  intro s
  show ((m s).bind k).Calm s
  have hfirst := hm s
  generalize m s = o at hfirst
  cases hfirst with
  | failed => exact .failed
  | @done a t h hn =>
    have hsecond := hk a t
    show (k a t).Calm s
    generalize k a t = o at hsecond
    cases hsecond with
    | failed => exact .failed
    | done h' hn' => exact .done (h.trans h') (hn'.trans hn)

/-- What a calm computation does on the way to what it comes to. -/
theorem done {m : EvalM α} (hm : m.Calm) {a : α} (h : m s = .done a t) :
    s.Later t ∧ t.nodes = s.nodes := by
  have hcalm := hm s
  rw [h] at hcalm
  cases hcalm with
  | done hs hn => exact ⟨hs, hn⟩

/-- Nothing more is done after a calm computation that only hands its value on. -/
theorem bind_eq {m : EvalM α} (hm : m.Calm) {k : α → EvalM α}
    (hk : ∀ a t, m s = .done a t → k a t = .done a t) : (m >>= k) s = m s := by
  have hcalm := hm s
  cases h : m s with
  | done a t => exact (EvalM.bind_of_done h k).trans (hk a t h)
  | failed e rest => exact EvalM.bind_of_failed h k
  | paused t resume =>
    rw [h] at hcalm
    cases hcalm

end EvalM.Calm

/-- An evaluation with standard operators is calm. -/
theorem evaluate_calm [Host] {c : Context}
    (hstandard : ∀ k op, c.registry.get? k = some op → ∃ o, op = .standard o) (r : NodeRef) :
    (evaluate c r).Calm := by
  intro s
  have hends := evaluate_ends hstandard r s
  have hnodes : ∀ a t, evaluate c r s = .done a t → t.nodes = s.nodes := by
    intro a t h
    have hc : c.Agrees s.nodes c := ⟨rfl, rfl, rfl, rfl, fun _ _ _ => rfl, hstandard⟩
    rw [evaluate, EvalM.mapFault] at h
    rcases evaluateWithin_follows (Nat.le_refl _) c c r hc s rfl with ⟨rest, e⟩ | ⟨-, hsettled⟩
    · rw [e] at h
      cases h
    · generalize evaluateWithin (maxDepth - c.depth).toNat c r s = o at h hsettled
      cases o with
      | done a t =>
        cases h
        exact hsettled
      | failed e rest => cases h
      | paused t resume => cases h
  generalize evaluate c r s = o at hends hnodes
  cases hends with
  | done h => exact .done h (hnodes _ _ rfl)
  | failed h he => exact .failed

end LiveTree
