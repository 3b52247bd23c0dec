import LiveTree.Proofs.Runs.Related
import LiveTree.Proofs.Runs.Tame
import LiveTree.Proofs.Store.Later

/-! Two runs of an evaluation, each on a store of its own. A correspondence says which stores belong
together and which values do, the latter as seen from the first store. If it is lawful, what can be
done to corresponding values on corresponding stores comes to the same: the rules for computations
that track each other carry that through whole evaluations. A run only makes the first store
later, and its faults are its own. -/

namespace LiveTree

variable {α β γ δ : Type}

/-- Values of one sort: equal without a cell, or cells of one sort. -/
inductive Value.SameSort : Value → Value → Prop
  | scalar {v : Value} (h : v.cell? = .none) : SameSort v v
  | list (a b : ListRef) : SameSort (.list a) (.list b)
  | tuple (a b : TupleRef) : SameSort (.tuple a) (.tuple b)
  | dict (a b : DictRef) : SameSort (.dict a) (.dict b)
  | node (a b : NodeRef) : SameSort (.node a) (.node b)

theorem Value.SameSort.isNone_eq {v w : Value} (h : v.SameSort w) : w.isNone = v.isNone := by
  cases h <;> rfl

/-- Two values are one cell just as others of their sorts are, if they are equal just as those are. -/
theorem Value.SameSort.sameCell_eq {a a' b b' : Value} (h : a.SameSort a')
    (hab : a.cell?.isSome → a'.cell?.isSome → (a = b ↔ a' = b')) :
    a'.sameCell b' = a.sameCell b := by
  have hsame : ∀ v w : Value, v.sameCell w = true ↔ v.cell?.isSome ∧ v = w := fun v w => by
    cases v <;> cases w <;> simp [Value.sameCell, Value.cell?]
  have hcell : a'.cell?.isSome = a.cell?.isSome := by cases h <;> rfl
  rw [Bool.eq_iff_iff, hsame, hsame, hcell]
  exact and_congr_right fun ha => (hab ha (hcell ▸ ha)).symm

/-- Results that are both there and related, or the same fault of the evaluation's own. -/
inductive Matches (R : α → β → Prop) : Except Fault α → Except Fault β → Prop
  | ok {a : α} {b : β} (h : R a b) : Matches R (.ok a) (.ok b)
  | error {e : Fault} (h : e.Tame) : Matches R (.error e) (.error e)

namespace Matches

variable {R : α → β → Prop} {S : γ → δ → Prop}

theorem of_eq {T : α → α → Prop} {r r' : Except Fault α} (h : r' = r) (ht : Tame r)
    (hr : ∀ a, r = .ok a → T a a) : Matches T r r' := by
  subst h
  cases r' with
  | ok a => exact .ok (hr a rfl)
  | error e => exact .error (ht e rfl)

theorem bind {r : Except Fault α} {r' : Except Fault β} {k : α → Except Fault γ}
    {k' : β → Except Fault δ} (h : Matches R r r') (hk : ∀ a b, R a b → Matches S (k a) (k' b)) :
    Matches S (r >>= k) (r' >>= k') := by
  cases h with
  | ok h => exact hk _ _ h
  | error h => exact .error h

end Matches

/-- Which stores belong together in two runs, and which values do, seen from the first store. -/
structure Correspondence where
  stores : Store → Store → Prop
  values : Store → Value → Value → Prop

namespace Correspondence

variable (C : Correspondence)

/-- Whether two nodes belong together. -/
def Paired (s : Store) (r r' : NodeRef) : Prop := C.values s (.node r) (.node r')

/-- Whether a node belongs to itself. -/
abbrev Knows (s : Store) (r : NodeRef) : Prop := C.Paired s r r

/-- Whether two maps have the same names in the same order, with values that belong together. -/
abbrev Maps (s : Store) (a b : Entries Value) : Prop := a.Related (C.values s) b

/-- Whether a node has been found in both runs, if in one, and the two belong together. -/
abbrev Found (s : Store) : Option NodeRef → Option NodeRef → Prop := Option.Rel (C.Paired s)

/-- Outcomes of two runs from corresponding stores: related values, or one fault of the
evaluation's own, on stores that correspond again. -/
inductive InStep (s : Store) (R : Store → α → β → Prop) : Outcome α → Outcome β → Prop
  | done {a : α} {b : β} {s' t' : Store} (hs : s.Later s') (ht : C.stores s' t') (h : R s' a b) :
    InStep s R (.done a s') (.done b t')
  | failed {e : Fault} {s' t' : Store} (hs : s.Later s') (ht : C.stores s' t') (h : e.Tame) :
    InStep s R (.failed e (.ended s')) (.failed e (.ended t'))

/-- What makes a correspondence of use. -/
structure Lawful : Prop where
  later {s s' : Store} {v w : Value} : C.values s v w → s.Later s' → C.values s' v w
  scalar {v : Value} (s : Store) : v.cell? = none → C.values s v v
  sort {s : Store} {v w : Value} : C.values s v w → v.SameSort w
  same {s : Store} {a a' b b' : NodeRef} : C.Paired s a a' → C.Paired s b b' → (a = b ↔ a' = b')
  nodes {s t : Store} {r r' : NodeRef} : C.stores s t → C.Paired s r r' →
    (s.node r).Related (C.values s) (t.node r')
  list {s t : Store} {a b : ListRef} : C.stores s t → C.values s (.list a) (.list b) →
    List.Forall₂ (C.values s) (s.list a) (t.list b)
  tuple {s t : Store} {a b : TupleRef} : C.stores s t → C.values s (.tuple a) (.tuple b) →
    List.Forall₂ (C.values s) (s.tuple a) (t.tuple b)
  dict {s t : Store} {a b : DictRef} : C.stores s t → C.values s (.dict a) (.dict b) →
    C.Maps s (s.dict a) (t.dict b)
  newList {s t : Store} {l l' : List Value} : C.stores s t → List.Forall₂ (C.values s) l l' →
    C.stores (s.newList l).2 (t.newList l').2 ∧
      C.values (s.newList l).2 (s.newList l).1 (t.newList l').1
  newTuple {s t : Store} {l l' : List Value} : C.stores s t → List.Forall₂ (C.values s) l l' →
    C.stores (s.newTuple l).2 (t.newTuple l').2 ∧
      C.values (s.newTuple l).2 (s.newTuple l).1 (t.newTuple l').1
  newDict {s t : Store} {d d' : Entries Value} : C.stores s t → C.Maps s d d' →
    C.stores (s.newDict d).2 (t.newDict d').2 ∧
      C.values (s.newDict d).2 (s.newDict d).1 (t.newDict d').1
  arguments {s t : Store} {r r' : NodeRef} : C.stores s t → C.Paired s r r' →
    C.InStep s (fun s' => List.Forall₂ (C.Paired s')) (orderedArguments r s) (orderedArguments r' t)
  segments {s t : Store} {v w : Value} : C.stores s t → C.values s v w →
    t.segments w = s.segments v
  equal {s t : Store} {a a' b b' : Value} : C.stores s t → C.values s a a' → C.values s b b' →
    t.equal a' b' = s.equal a b
  order {s t : Store} {a a' b b' : Value} (rel : Relation) : C.stores s t → C.values s a a' →
    C.values s b b' → t.order rel a' b' = s.order rel a b
  text {s t : Store} {v w : Value} : C.stores s t → C.values s v w →
    t.shownText w = s.shownText v
  parent {s t : Store} {r r' root root' : NodeRef} : C.stores s t → C.Paired s r r' →
    C.Paired s root root' → Matches (C.Found s) (s.findParent r root) (t.findParent r' root')

/-- Whether two computations come to the same on all corresponding stores from a first store on. -/
def Tracks (s : Store) (R : Store → α → β → Prop) (m : EvalM α) (m' : EvalM β) : Prop :=
  ∀ s' t, s.Later s' → C.stores s' t → C.InStep s' R (m s') (m' t)

variable {C}

theorem Paired.later (hC : C.Lawful) {s s' : Store} {r r' : NodeRef} (h : C.Paired s r r')
    (hs : s.Later s') : C.Paired s' r r' := hC.later h hs

/-- What has been found belongs to itself if each node does that may have been. -/
theorem Found.same {s : Store} {o : Option NodeRef} (h : ∀ q, o = some q → C.Knows s q) :
    C.Found s o o := by
  cases o with
  | none => exact .none
  | some q => exact .some (h q rfl)

theorem Found.later (hC : C.Lawful) {s s' : Store} {o o' : Option NodeRef} (h : C.Found s o o')
    (hs : s.Later s') : C.Found s' o o' := by
  cases h with
  | some h => exact .some (h.later hC hs)
  | none => exact .none

theorem Maps.later (hC : C.Lawful) {s s' : Store} {a b : Entries Value} (h : C.Maps s a b)
    (hs : s.Later s') : C.Maps s' a b := h.imp fun _ _ hv => hC.later hv hs

namespace InStep

variable {s s' : Store} {R : Store → α → β → Prop}

/-- A run that goes on from a later store is a run from the first. -/
theorem earlier {x : Outcome α} {y : Outcome β} (h : C.InStep s' R x y) (hs : s.Later s') :
    C.InStep s R x y := by
  cases h with
  | done hs' ht h => exact .done (hs.trans hs') ht h
  | failed hs' ht h => exact .failed (hs.trans hs') ht h

end InStep

namespace Tracks

variable {s s' : Store} {R : Store → α → β → Prop} {S : Store → γ → δ → Prop}

theorem later {m : EvalM α} {m' : EvalM β} (h : C.Tracks s R m m') (hs : s.Later s') :
    C.Tracks s' R m m' := fun s₁ t h₁ ht => h s₁ t (hs.trans h₁) ht

theorem pure {a : α} {b : β} (h : ∀ s', s.Later s' → R s' a b) :
    C.Tracks s R (Pure.pure a) (Pure.pure b) := fun s' _ hs ht => .done (.refl s') ht (h s' hs)

theorem fail {e : Fault} (h : e.Tame) : C.Tracks s R (EvalM.fail e) (EvalM.fail e) :=
  fun s' _ _ ht => .failed (.refl s') ht h

theorem read {f : Store → α} {g : Store → β}
    (h : ∀ s' t, s.Later s' → C.stores s' t → R s' (f s') (g t)) :
    C.Tracks s R (EvalM.read f) (EvalM.read g) := fun s' t hs ht =>
  .done (.refl s') ht (h s' t hs ht)

theorem check {f : Store → Except Fault α} {g : Store → Except Fault β}
    (h : ∀ s' t, s.Later s' → C.stores s' t → Matches (R s') (f s') (g t)) :
    C.Tracks s R (EvalM.check f) (EvalM.check g) := by
  intro s' t hs ht
  have hfg := h s' t hs ht
  rw [EvalM.check, EvalM.check]
  generalize f s' = x at hfg
  generalize g t = y at hfg
  cases hfg with
  | ok h => exact .done (.refl s') ht h
  | error h => exact .failed (.refl s') ht h

theorem ofExcept {r : Except Fault α} {r' : Except Fault β}
    (h : ∀ s', s.Later s' → Matches (R s') r r') :
    C.Tracks s R (EvalM.ofExcept r) (EvalM.ofExcept r') :=
  check (f := fun _ => r) (g := fun _ => r') fun s' _ hs _ => h s' hs

theorem update {f : Store → α × Store} {g : Store → β × Store}
    (h : ∀ s' t, s.Later s' → C.stores s' t →
      s'.Later (f s').2 ∧ C.stores (f s').2 (g t).2 ∧ R (f s').2 (f s').1 (g t).1) :
    C.Tracks s R (EvalM.update f) (EvalM.update g) := fun s' t hs ht =>
  have ⟨hs', ht', hR⟩ := h s' t hs ht
  .done hs' ht' hR

theorem attempt {f : Store → Except Fault (α × Store)} {g : Store → Except Fault (β × Store)}
    (h : ∀ s' t, s.Later s' → C.stores s' t →
      Matches (fun p q => s'.Later p.2 ∧ C.stores p.2 q.2 ∧ R p.2 p.1 q.1) (f s') (g t)) :
    C.Tracks s R (EvalM.attempt f) (EvalM.attempt g) := by
  intro s' t hs ht
  have hfg := h s' t hs ht
  rw [EvalM.attempt, EvalM.attempt]
  generalize f s' = x at hfg
  generalize g t = y at hfg
  cases hfg with
  | ok h => exact .done h.1 h.2.1 h.2.2
  | error h => exact .failed (.refl s') ht h

theorem bind {m : EvalM α} {m' : EvalM β} {k : α → EvalM γ} {k' : β → EvalM δ}
    (hm : C.Tracks s R m m')
    (hk : ∀ s' a b, s.Later s' → R s' a b → C.Tracks s' S (k a) (k' b)) :
    C.Tracks s S (m >>= k) (m' >>= k') := by
  intro s' t hs ht
  show C.InStep s' S ((m s').bind k) ((m' t).bind k')
  have hstep := hm s' t hs ht
  generalize m s' = x at hstep
  generalize m' t = y at hstep
  cases hstep with
  | done hs₁ ht₁ h => exact (hk _ _ _ (hs.trans hs₁) h _ _ (.refl _) ht₁).earlier hs₁
  | failed hs₁ ht₁ h => exact .failed hs₁ ht₁ h

/-- Computations on the elements of two lists, one after another, when what holds of a result goes
on to hold. -/
theorem mapM {ε : Type} {f : α → EvalM γ} {g : ε → EvalM δ}
    (hS : ∀ s s' c d, S s c d → s.Later s' → S s' c d) {l : List α} {l' : List ε}
    (h : List.Forall₂ (fun a b => C.Tracks s S (f a) (g b)) l l') :
    C.Tracks s (fun s' => List.Forall₂ (S s')) (l.mapM f) (l'.mapM g) := by
  have hloop : ∀ (l : List α) (l' : List ε) (s : Store) (cs : List γ) (ds : List δ),
      List.Forall₂ (fun a b => C.Tracks s S (f a) (g b)) l l' → List.Forall₂ (S s) cs ds →
      C.Tracks s (fun s' => List.Forall₂ (S s')) (List.mapM.loop f l cs)
        (List.mapM.loop g l' ds) := by
    intro l
    induction l with
    | nil =>
      intro l' s cs ds hl hcs
      cases hl
      refine .pure fun s' hs => ?_
      exact (List.rel_reverse hcs).imp fun c d hcd => hS _ _ c d hcd hs
    | cons a rest ih =>
      intro l' s cs ds hl hcs
      cases hl with
      | cons hfirst hrest =>
        refine .bind hfirst fun s' c d hs hcd => ?_
        refine ih _ s' _ _ (hrest.imp fun _ _ hb => hb.later hs) ?_
        exact .cons hcd (hcs.imp fun c d hcd => hS _ _ c d hcd hs)
  exact hloop l l' s [] [] h .nil

end Tracks

/-! ### Contexts -/

/-- Whether two ways to find parents go by nodes that belong together. -/
structure Lookups (C : Correspondence) (s : Store) (l l' : Lookup) : Prop where
  known : List.Forall₂ (fun e e' => C.Paired s e.1 e'.1 ∧ C.Found s e.2 e'.2) l.known l'.known
  root : C.Found s l.root l'.root

/-- Whether two contexts have nodes and loop variables that belong together and the same operators,
only standard ones. How deep they are may differ. -/
structure Contexts (C : Correspondence) (s : Store) (c c' : Context) : Prop where
  current : C.Paired s c.current c'.current
  root : C.Paired s c.root c'.root
  registry : c'.registry = c.registry
  lookup : Option.Rel (C.Lookups s) c.lookup c'.lookup
  bindings : Option.Rel (C.Maps s) c.bindings c'.bindings
  standard : ∀ k op, c.registry.get? k = some op → ∃ o, op = .standard o

theorem Lookups.later (hC : C.Lawful) {s s' : Store} {l l' : Lookup} (h : C.Lookups s l l')
    (hs : s.Later s') : C.Lookups s' l l' where
  known := h.known.imp fun _ _ he => ⟨he.1.later hC hs, Found.later hC he.2 hs⟩
  root := Found.later hC h.root hs

namespace Contexts

variable {s s' : Store} {c c' : Context}

theorem later (hC : C.Lawful) (h : C.Contexts s c c') (hs : s.Later s') : C.Contexts s' c c' where
  current := h.current.later hC hs
  root := h.root.later hC hs
  registry := h.registry
  lookup := by
    have hlookup := h.lookup
    generalize c.lookup = l at hlookup
    generalize c'.lookup = l' at hlookup
    cases hlookup with
    | some hl => exact .some (hl.later hC hs)
    | none => exact .none
  bindings := by
    have hbindings := h.bindings
    generalize c.bindings = m at hbindings
    generalize c'.bindings = m' at hbindings
    cases hbindings with
    | some hm => exact .some (Maps.later hC hm hs)
    | none => exact .none
  standard := h.standard

theorem deeper (h : C.Contexts s c c') : C.Contexts s c.deeper c'.deeper := { h with }

theorem focus (h : C.Contexts s c c') {r r' : NodeRef} (hr : C.Paired s r r') :
    C.Contexts s (c.focus r) (c'.focus r') := { h with current := hr }

end Contexts

/-- Whether two evaluators track each other on nodes that belong together. -/
def Evaluators (C : Correspondence) (eval eval' : Evaluator) : Prop :=
  ∀ s c c' r r', C.Contexts s c c' → C.Paired s r r' → C.Tracks s C.values (eval c r) (eval' c' r')

end Correspondence

end LiveTree
