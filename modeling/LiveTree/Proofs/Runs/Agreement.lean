import LiveTree.Proofs.Runs.Habits
import LiveTree.Proofs.Store.Later

/-! Runs that agree. Two computations may start on stores that differ in the argument orders that
they remember of some nodes, and have nothing else between them: they suspend at the same points, on
such stores again, and come to the same result or the same fault. So does every evaluation with
itself, if the operators of the host do. What is remembered of such a node may be missing, but it is
not wrong; so it makes no difference whether a run finds it or works it out. -/

namespace LiveTree

variable {α β : Type}

/-! ### Agreeing outcomes -/

section

variable (R : Store → Store → Prop)

/-- Whether what is under way does the same in two runs, on stores that are related. -/
inductive Aftermath.Agrees : Aftermath → Aftermath → Prop
  | ended {s t : Store} (h : R s t) : Agrees (.ended s) (.ended t)
  | ongoing {s t : Store} (h : R s t) {x y : Store → Aftermath}
    (hresume : ∀ s t, R s t → Agrees (x s) (y t)) : Agrees (.ongoing s x) (.ongoing t y)

/-- Whether two computations come to the same, on stores that are related whenever they hand them
out. -/
inductive Outcome.Agrees : Outcome α → Outcome α → Prop
  | done {s t : Store} (a : α) (h : R s t) : Agrees (.done a s) (.done a t)
  | failed (e : Fault) {x y : Aftermath} (h : Aftermath.Agrees R x y) :
    Agrees (.failed e x) (.failed e y)
  | paused {s t : Store} (h : R s t) {x y : Store → Outcome α}
    (hresume : ∀ s t, R s t → Agrees (x s) (y t)) : Agrees (.paused s x) (.paused t y)

/-- Whether two computations come to the same from stores that are related. -/
def EvalM.Agrees (m m' : EvalM α) : Prop := ∀ s t, R s t → Outcome.Agrees R (m s) (m' t)

/-- Whether the operators of a host come to the same from stores that are related, with evaluators
that do. -/
def Host.Agrees (host : Host) : Prop :=
  ∀ name eval, (∀ c r, EvalM.Agrees R (eval c r) (eval c r)) →
    ∀ c args, EvalM.Agrees R (host.call name eval c args) (host.call name eval c args)

end

variable {R : Store → Store → Prop}

namespace Aftermath.Agrees

variable {x y z : Aftermath}

theorem symm (hR : ∀ s t, R s t → R t s) (h : x.Agrees R y) : y.Agrees R x := by
  induction h with
  | ended h => exact .ended (hR _ _ h)
  | ongoing h _ ih => exact .ongoing (hR _ _ h) fun s t hst => ih t s (hR s t hst)

theorem trans (hleft : ∀ s t, R s t → R s s) (hR : ∀ s t u, R s t → R t u → R s u)
    (h : x.Agrees R y) (h' : y.Agrees R z) : x.Agrees R z := by
  induction h generalizing z with
  | ended h =>
    cases h' with
    | ended h' => exact .ended (hR _ _ _ h h')
  | ongoing h _ ih =>
    cases h' with
    | ongoing h' hresume =>
      exact .ongoing (hR _ _ _ h h') fun s t hst => ih s s (hleft s t hst) (hresume s t hst)

theorem store (h : x.Agrees R y) : R x.store y.store := by
  cases h with
  | ended h => exact h
  | ongoing h _ => exact h

theorem step (h : x.Agrees R y) : x.step.Agrees R y.step := by
  cases h with
  | ended h => exact .ended h
  | ongoing h hresume => exact hresume _ _ h

end Aftermath.Agrees

namespace Outcome.Agrees

variable {x y z : Outcome α}

theorem symm (hR : ∀ s t, R s t → R t s) (h : x.Agrees R y) : y.Agrees R x := by
  induction h with
  | done a h => exact .done a (hR _ _ h)
  | failed e h => exact .failed e (h.symm hR)
  | paused h _ ih => exact .paused (hR _ _ h) fun s t hst => ih t s (hR s t hst)

theorem trans (hleft : ∀ s t, R s t → R s s) (hR : ∀ s t u, R s t → R t u → R s u)
    (h : x.Agrees R y) (h' : y.Agrees R z) : x.Agrees R z := by
  induction h generalizing z with
  | done a h =>
    cases h' with
    | done _ h' => exact .done a (hR _ _ _ h h')
  | failed e h =>
    cases h' with
    | failed _ h' => exact .failed e (h.trans hleft hR h')
  | paused h _ ih =>
    cases h' with
    | paused h' hresume =>
      exact .paused (hR _ _ _ h h') fun s t hst => ih s s (hleft s t hst) (hresume s t hst)

theorem bind (h : x.Agrees R y) {k k' : α → Store → Outcome β}
    (hk : ∀ a s t, R s t → (k a s).Agrees R (k' a t)) : (x.bind k).Agrees R (y.bind k') := by
  induction h with
  | done a h => exact hk a _ _ h
  | failed e h => exact .failed e h
  | paused h _ ih => exact .paused h ih

theorem mapFault (h : x.Agrees R y) (f : Fault → Fault) : (x.mapFault f).Agrees R (y.mapFault f) := by
  induction h with
  | done a h => exact .done a h
  | failed e h => exact .failed (f e) h
  | paused h _ ih => exact .paused h ih

/-- Run to their ends, both give the same, and leave stores that are related. -/
theorem finish (h : x.Agrees R y) : x.finish.1 = y.finish.1 ∧ R x.finish.2 y.finish.2 := by
  induction h with
  | done a h => exact ⟨rfl, h⟩
  | failed e h => exact ⟨rfl, h.step.store⟩
  | paused h _ ih => exact ih _ _ h

end Outcome.Agrees

namespace EvalM.Agrees

theorem pure (a : α) : Agrees R (Pure.pure a : EvalM α) (Pure.pure a) := fun _ _ h => .done a h

theorem bind {m m' : EvalM α} {k k' : α → EvalM β} (hm : Agrees R m m')
    (hk : ∀ a, Agrees R (k a) (k' a)) : Agrees R (m >>= k) (m' >>= k') := fun s t h =>
  (hm s t h).bind hk

theorem mapFault {m m' : EvalM α} (hm : Agrees R m m') (f : Fault → Fault) :
    Agrees R (m.mapFault f) (m'.mapFault f) := fun s t h => (hm s t h).mapFault f

end EvalM.Agrees

/-! ### Stores that differ in what is remembered -/

/-- Whether two stores are the same except for the argument orders that they remember of some nodes.
These nodes are as they are in a first store, and what is remembered of them is right. -/
structure Store.Alongside (first : Store) (K : NodeRef → Prop) (s t : Store) : Prop where
  same : t = s.withOrders t.argOrders
  size : t.argOrders.size = s.argOrders.size
  order : ∀ r, ¬ K r → t.argOrder r = s.argOrder r
  node : ∀ r, K r → s.node r = first.node r
  right : ∀ r keys, K r → s.argOrder r = some keys ∨ t.argOrder r = some keys →
    argumentOrder (first.node r).children.keys = .ok keys

namespace Store.Alongside

variable {first s t u : Store} {K : NodeRef → Prop} {r : NodeRef} {keys : List String}

theorem left (h : first.Alongside K s t) : first.Alongside K s s where
  same := rfl
  size := rfl
  order _ _ := rfl
  node := h.node
  right r keys hr hkeys := h.right r keys hr (.inl (hkeys.elim id id))

theorem node_eq (h : first.Alongside K s t) (r : NodeRef) : t.node r = s.node r := by
  rw [h.same]
  rfl

theorem symm (h : first.Alongside K s t) : first.Alongside K t s where
  same := by
    rw [h.same]
    rfl
  size := h.size.symm
  order r hr := (h.order r hr).symm
  node r hr := (h.node_eq r).trans (h.node r hr)
  right r keys hr hkeys := h.right r keys hr hkeys.symm

theorem trans (h : first.Alongside K s t) (h' : first.Alongside K t u) : first.Alongside K s u where
  same := by
    rw [h'.same, h.same]
    rfl
  size := h'.size.trans h.size
  order r hr := (h'.order r hr).trans (h.order r hr)
  node := h.node
  right r keys hr hkeys := hkeys.elim (fun hkeys => h.right r keys hr (.inl hkeys))
    fun hkeys => h'.right r keys hr (.inr hkeys)

/-- An order that is worked out in one of the runs is right. -/
theorem setLeft (h : first.Alongside K s t) (hr : K r)
    (hkeys : argumentOrder (first.node r).children.keys = .ok keys) :
    first.Alongside K (s.setArgOrder r keys) t where
  same := h.same
  size := by
    rw [h.size]
    simp [setArgOrder]
  order q hq := by
    rcases s.argOrder_setArgOrder r keys q with e | ⟨rfl, -⟩
    · rw [e, h.order q hq]
    · exact absurd hr hq
  node := h.node
  right q keys' hq hkeys' := by
    rcases s.argOrder_setArgOrder r keys q with e | ⟨rfl, e⟩
    · rw [e] at hkeys'
      exact h.right q keys' hq hkeys'
    · rcases hkeys' with hkeys' | hkeys'
      · rw [e] at hkeys'
        exact Option.some.inj hkeys' ▸ hkeys
      · exact h.right q keys' hq (.inr hkeys')

theorem setRight (h : first.Alongside K s t) (hr : K r)
    (hkeys : argumentOrder (first.node r).children.keys = .ok keys) :
    first.Alongside K s (t.setArgOrder r keys) := (h.symm.setLeft hr hkeys).symm

/-- An order that is worked out in both runs. -/
theorem setBoth (h : first.Alongside K s t) (hr : ¬ K r) (keys : List String) :
    first.Alongside K (s.setArgOrder r keys) (t.setArgOrder r keys) where
  same := by
    rw [h.same]
    rfl
  size := by simpa [setArgOrder] using h.size
  order q hq := by
    by_cases e : q = r
    · subst e
      by_cases hlt : q.index < s.argOrders.size
      · rw [argOrder_setArgOrder_self hlt, argOrder_setArgOrder_self (h.size ▸ hlt)]
      · simp [setArgOrder, argOrder, Array.getD, hlt, h.size]
    · rw [argOrder_setArgOrder_ne e, argOrder_setArgOrder_ne e, h.order q hq]
  node := h.node
  right q keys' hq := by
    have e : q ≠ r := fun e => hr (e ▸ hq)
    rw [argOrder_setArgOrder_ne e, argOrder_setArgOrder_ne e]
    exact h.right q keys' hq

/-- What leaves the nodes and what is remembered of them. -/
theorem after {s' : Store} (h : first.Alongside K s t) (hnodes : s'.nodes = s.nodes)
    (horders : s'.argOrders = s.argOrders) :
    first.Alongside K s' (s'.withOrders t.argOrders) where
  same := rfl
  size := h.size.trans (congrArg Array.size horders.symm)
  order q hq := (h.order q hq).trans (by rw [argOrder, argOrder, horders])
  node q hq := (by rw [Store.node, Store.node, hnodes] : s'.node q = s.node q).trans (h.node q hq)
  right q keys hq hkeys := h.right q keys hq (by rwa [argOrder, horders] at hkeys)

end Store.Alongside

/-! ### Evaluations -/

section

variable {first s t : Store} {K : NodeRef → Prop}

theorem EvalM.Step.agrees {f : Store → Except Fault (α × Store)} (h : EvalM.Step f) :
    EvalM.Agrees (first.Alongside K) (EvalM.attempt f) (EvalM.attempt f) := by
  intro s t hst
  have hs := h.heedless s s.argOrders
  have ht := h.heedless s t.argOrders
  rw [← hst.same] at ht
  rw [EvalM.attempt, EvalM.attempt, ht]
  cases e : f s with
  | error fault => exact .failed fault (.ended hst)
  | ok p =>
    rw [show s.withOrders s.argOrders = s from rfl, e] at hs
    exact .done p.1 (hst.after (h.sameNodes s p.1 p.2 e)
      (congrArg (fun q => q.2.argOrders) (Except.ok.inj hs)))

/-- Looking up the arguments of a node that is remembered rightly, if at all, comes to the same as
working their order out and remembering it. -/
theorem Store.Alongside.orderedArguments (h : first.Alongside K s t) {r : NodeRef} (hr : K r) :
    orderedArguments r s = match argumentOrder (first.node r).children.keys with
      | .ok keys => .done ((first.node r).arguments keys) (s.setArgOrder r keys)
      | .error e => .failed e (.ended s) := by
  have hnode := h.node r hr
  rcases orderedArguments_cases s r with ⟨keys, hkept, hdone⟩ | ⟨keys, -, hkeys, hdone⟩ |
    ⟨e, -, hfault, hfailed⟩
  · rw [h.right r keys hr (.inl hkept), hdone, hnode]
    simp only [setArgOrder_kept hkept]
  · rw [hnode] at hkeys hdone
    rw [hkeys, hdone]
  · rw [hnode] at hfault
    rw [hfault, hfailed]

theorem orderedArguments_agrees (r : NodeRef) :
    EvalM.Agrees (first.Alongside K) (orderedArguments r) (orderedArguments r) := by
  intro s t hst
  by_cases hr : K r
  · rw [hst.orderedArguments hr, hst.symm.orderedArguments hr]
    cases hkeys : argumentOrder (first.node r).children.keys with
    | ok keys => exact .done _ ((hst.setLeft hr hkeys).setRight hr hkeys)
    | error e => exact .failed e (.ended hst)
  · simp only [LiveTree.orderedArguments, EvalM.read_bind, hst.order r hr, hst.node_eq r]
    cases s.argOrder r with
    | some keys => exact .done _ hst
    | none =>
      cases argumentOrder (s.node r).children.keys with
      | ok keys => exact .done _ (hst.setBoth hr keys)
      | error e => exact .failed e (.ended hst)

namespace EvalM

variable {m m' m'' : EvalM α}

theorem Agrees.symm (h : Agrees (first.Alongside K) m m') : Agrees (first.Alongside K) m' m :=
  fun s t hst => (h t s hst.symm).symm fun _ _ => .symm

theorem Agrees.trans (h : Agrees (first.Alongside K) m m')
    (h' : Agrees (first.Alongside K) m' m'') : Agrees (first.Alongside K) m m'' := fun s t hst =>
  (h s s hst.left).trans (fun _ _ => .left) (fun _ _ _ => .trans) (h' s t hst)

/-- Every evaluation comes to the same with itself, if the operators of the host do. -/
theorem habit_agrees : Habit fun m => Agrees (first.Alongside K) m m where
  pure := .pure
  attempt h := h.agrees
  orderedArguments := orderedArguments_agrees
  bind hm hk := hm.bind hk
  orTooDeep hm := hm.mapFault _

end EvalM

end

end LiveTree
