import LiveTree.Eval.Evaluate

/-! Evaluations side by side. With standard operators only, what an evaluation comes to depends on
the node that `self` means, the root, the operators, the loop variables and the parents that are
found, and on the levels that are left only in that it may run out of them. Evaluation never
suspends then, and leaves the nodes as they are. -/

namespace LiveTree

variable {α β : Type} {nodes : Array Node} {s : Store}

/-- Whether a computation has come to an end and left certain nodes in the store. -/
def Outcome.Settled (nodes : Array Node) : Outcome α → Prop
  | done _ s => s.nodes = nodes
  | failed _ _ => True
  | paused _ _ => False

/-- Whether the second of two computations comes to the same as the first on every store with
certain nodes, unless the first runs out of levels. -/
def Follows (nodes : Array Node) (m m' : EvalM α) : Prop := ∀ s, s.nodes = nodes →
  (∃ rest, m s = .failed .tooDeep rest) ∨ m' s = m s ∧ (m s).Settled nodes

namespace Follows

theorem of_settled {m : EvalM α} (h : ∀ s, s.nodes = nodes → (m s).Settled nodes) :
    Follows nodes m m := fun s hs => .inr ⟨rfl, h s hs⟩

theorem tooDeep {m : EvalM α} : Follows nodes (EvalM.fail .tooDeep) m := fun s _ =>
  .inl ⟨.ended s, rfl⟩

theorem fail (e : Fault) : Follows nodes (EvalM.fail e : EvalM α) (EvalM.fail e) :=
  .of_settled fun _ _ => trivial

theorem pure (a : α) : Follows nodes (Pure.pure a : EvalM α) (Pure.pure a) :=
  .of_settled fun _ hs => hs

theorem read (f : Store → α) : Follows nodes (EvalM.read f) (EvalM.read f) :=
  .of_settled fun _ hs => hs

theorem ofExcept (r : Except Fault α) : Follows nodes (EvalM.ofExcept r) (EvalM.ofExcept r) := by
  refine .of_settled fun s hs => ?_
  cases r with
  | ok a => exact hs
  | error e => trivial

theorem check {f g : Store → Except Fault α} (h : ∀ s, s.nodes = nodes → g s = f s) :
    Follows nodes (EvalM.check f) (EvalM.check g) := by
  intro s hs
  refine .inr ⟨congrArg (Outcome.ofExcept s) (h s hs), ?_⟩
  rw [EvalM.check]
  cases f s with
  | ok a => exact hs
  | error e => trivial

theorem modify {f : Store → Store} (h : ∀ s, (f s).nodes = s.nodes) :
    Follows nodes (EvalM.modify f) (EvalM.modify f) := .of_settled fun s hs => (h s).trans hs

theorem update {f : Store → α × Store} (h : ∀ s, (f s).2.nodes = s.nodes) :
    Follows nodes (EvalM.update f) (EvalM.update f) := .of_settled fun s hs => (h s).trans hs

theorem attempt {f : Store → Except Fault (α × Store)}
    (h : ∀ s a t, f s = .ok (a, t) → t.nodes = s.nodes) :
    Follows nodes (EvalM.attempt f) (EvalM.attempt f) := by
  refine .of_settled fun s hs => ?_
  rw [EvalM.attempt]
  split
  · rename_i a t hf
    exact (h s a t hf).trans hs
  · trivial

theorem bind {m m' : EvalM α} {k k' : α → EvalM β} (hm : Follows nodes m m')
    (hk : ∀ a, Follows nodes (k a) (k' a)) : Follows nodes (m >>= k) (m' >>= k') := by
  intro s hs
  show (∃ rest, (m s).bind k = _) ∨ (m' s).bind k' = (m s).bind k ∧ ((m s).bind k).Settled nodes
  rcases hm s hs with ⟨rest, hms⟩ | ⟨hms', hsettled⟩
  · exact .inl ⟨rest, by rw [hms]; rfl⟩
  · rw [hms']
    cases hms : m s with
    | done a t =>
      rw [hms] at hsettled
      exact hk a t hsettled
    | failed e rest => exact .inr ⟨rfl, trivial⟩
    | paused t resume =>
      rw [hms] at hsettled
      exact hsettled.elim

theorem mapM {f f' : α → EvalM β} (h : ∀ a, Follows nodes (f a) (f' a)) (l : List α) :
    Follows nodes (l.mapM f) (l.mapM f') := by
  have hloop : ∀ (l : List α) (bs : List β),
      Follows nodes (List.mapM.loop f l bs) (List.mapM.loop f' l bs) := by
    intro l
    induction l with
    | nil => exact fun bs => .pure _
    | cons a rest ih => exact fun bs => .bind (h a) fun b => ih (b :: bs)
  exact hloop l []

end Follows

/-! ### Contexts -/

/-- Whether two contexts are the same but for how deep they are and how they find parents, which
they find alike among certain nodes, and have standard operators only. -/
structure Context.Agrees (nodes : Array Node) (c c' : Context) : Prop where
  current : c'.current = c.current
  root : c'.root = c.root
  registry : c'.registry = c.registry
  bindings : c'.bindings = c.bindings
  parent : ∀ s, s.nodes = nodes → ∀ r, c'.parent s r = c.parent s r
  standard : ∀ k op, c.registry.get? k = some op → ∃ o, op = .standard o

namespace Context.Agrees

variable {c c' : Context}

theorem symm (h : c.Agrees nodes c') : c'.Agrees nodes c where
  current := h.current.symm
  root := h.root.symm
  registry := h.registry.symm
  bindings := h.bindings.symm
  parent s hs r := (h.parent s hs r).symm
  standard := h.registry ▸ h.standard

theorem deeper (h : c.Agrees nodes c') : c.deeper.Agrees nodes c'.deeper := { h with }

theorem focus (h : c.Agrees nodes c') (r : NodeRef) : (c.focus r).Agrees nodes (c'.focus r) :=
  { h with current := rfl }

theorem withBindings (h : c.Agrees nodes c') (extra : Entries Value) :
    (c.withBindings extra).Agrees nodes (c'.withBindings extra) :=
  { h with bindings := by simp only [Context.withBindings, loopVariables, h.bindings] }

end Context.Agrees

/-- Whether the second of two evaluators follows the first in contexts that agree. -/
def Evaluator.Follows (nodes : Array Node) (eval eval' : Evaluator) : Prop :=
  ∀ c c' r, Context.Agrees nodes c c' → LiveTree.Follows nodes (eval c r) (eval' c' r)

end LiveTree
