import LiveTree.Proofs.Reads.Echo
import LiveTree.Proofs.Tree.Course

/-! Reads at a wrapper as computations on the store. What a read at a wrapper makes of the other
wrappers is where its node stands: the root, the parents on the way up and the registry. These make
a seat. A seat has values and constraints of its own, without any wrapper, and a read of a living
wrapper comes to what is read at its seat. -/

namespace LiveTree

variable {σ α β : Type}

/-- What a read at a wrapper goes by besides the store. -/
structure Seat where
  node : NodeRef
  /-- The node of the topmost ancestor. -/
  root : NodeRef
  /-- The wrapper's node and those of its ancestors, each with that of its parent. -/
  known : List (NodeRef × Option NodeRef)
  /-- The registry of the wrapper or of its nearest ancestor that has one. -/
  registry : Option Registry

/-- The seat of a wrapper. -/
def Forest.seat (f : Forest) (w : WrapperRef) : Seat where
  node := (f.wrapper w).node
  root := (f.wrapper (f.root w)).node
  known := (w :: f.ancestors w).map fun a =>
    ((f.wrapper a).node, (f.wrapper a).parent.map fun p => (f.wrapper p).node)
  registry := f.registry w

/-- A wrapper has the same seat in two forests if it and all wrappers above are the same but for
what they keep. -/
theorem Forest.seat_eq {f g : Forest} {w : WrapperRef} {P : WrapperRef → Prop}
    (hP : ∀ a, P a → f.Unmoved g a) (hup : ∀ a p, P a → (f.wrapper a).parent = some p → P p)
    (hw : P w) : g.seat w = f.seat w := by
  obtain ⟨hancestors, habove⟩ : g.ancestors w = f.ancestors w ∧ ∀ a ∈ f.ancestors w, P a :=
    ancestorsTo_congr (fun a ha => (hP a ha).parent) hup hw
  have hall : ∀ a ∈ w :: f.ancestors w, P a := List.forall_mem_cons.mpr ⟨hw, habove⟩
  have hroot : g.root w = f.root w := by rw [root, root, hancestors]
  have hregistry : ∀ l : List WrapperRef, (∀ a ∈ l, P a) →
      l.findSome? (fun a => (g.wrapper a).registry) =
        l.findSome? fun a => (f.wrapper a).registry := by
    intro l hl
    induction l with
    | nil => rfl
    | cons a rest ih =>
      obtain ⟨ha, hrest⟩ := List.forall_mem_cons.mp hl
      rw [List.findSome?_cons, List.findSome?_cons, (hP a ha).registry, ih hrest]
  have hknown : (w :: f.ancestors w).map (fun a =>
      ((g.wrapper a).node, (g.wrapper a).parent.map fun p => (g.wrapper p).node)) =
        (w :: f.ancestors w).map fun a =>
          ((f.wrapper a).node, (f.wrapper a).parent.map fun p => (f.wrapper p).node) := by
    refine List.map_congr_left fun a ha => Prod.ext (hP a (hall a ha)).node ?_
    show (g.wrapper a).parent.map _ = _
    rw [(hP a (hall a ha)).parent]
    cases hp : (f.wrapper a).parent with
    | none => rfl
    | some p => exact congrArg some (hP p (hup a p (hall a ha) hp)).node
  rw [seat, seat, registry, registry, hancestors, hroot, hknown, hregistry _ hall,
    (hP w hw).node, (hP _ (hall _ (f.root_mem w))).node]

/-- The cells of a store do not matter. -/
theorem World.seat_withStore (x : World σ) (t : Store) (w : WrapperRef) :
    (x.withStore t).forest.seat w = x.forest.seat w :=
  Forest.seat_eq (P := fun _ => True) (fun _ _ => ⟨_, rfl⟩) (fun _ _ _ _ => trivial) trivial

/-- What a node stands for in a context: an expression is evaluated, a node held as the value too, and
any other value is itself. -/
def Context.valueOf [Host] (c : Context) (r : NodeRef) : EvalM Value := do
  let s ← EvalM.read id
  if (s.node r).kind.isExpression then evaluate c r
  else match (s.node r).value with
  | .node v => evaluate c v
  | v => return v

namespace Seat

/-- What an evaluation at a seat runs in, with a registry. -/
def contextWith (p : Seat) (registry : Registry) : Context where
  current := p.node
  root := p.root
  registry := registry
  bindings := none
  depth := 0
  lookup := some ⟨p.known, some p.root⟩

/-- What an evaluation at a seat runs in. -/
def context (p : Seat) : EvalM Context :=
  match p.registry with
  | none => EvalM.fail .noRegistry
  | some registry => pure (p.contextWith registry)

section

variable [Host] (p : Seat)

/-- The value at a seat. -/
def value : EvalM Value := do
  let c ← p.context
  c.valueOf c.current

/-- Whether a constraint at a seat holds. -/
def constraint (key : String) : EvalM Bool := do
  let s ← EvalM.read id
  match (s.node p.node).constraints.get? key with
  | none => return true
  | some r =>
    match (s.node r).value with
    | .none => return true
    | .node rule => do
      let c ← p.context
      let v ← evaluate c rule
      EvalM.read (·.truthy v)
    | v => EvalM.read (·.truthy v)

/-- The words for a constraint at a seat that fails. -/
def message (key : String) (rule : NodeRef) : EvalM String := do
  let s ← EvalM.read id
  match (s.node rule).metadata.get? "message" with
  | none => return "Constraint " ++ key ++ " failed"
  | some r =>
    match (s.node r).value with
    | .none => return "Constraint " ++ key ++ " failed"
    | .node expr => do
      let c ← p.context
      let v ← evaluate c expr
      EvalM.check (·.valueText v)
    | v => EvalM.check (·.valueText v)

/-- What is found of some constraints at a seat, one after another. -/
def checkAll (failures : Failures) : List (String × NodeRef) → EvalM Failures
  | [] => return failures
  | (key, rule) :: rest => do
    if ← p.constraint key then checkAll failures rest
    else do
      let text ← p.message key rule
      checkAll (failures.insert key text) rest

/-- What is found of all constraints at a seat. -/
def failures : EvalM Failures := do
  let s ← EvalM.read id
  p.checkAll ∅ (s.node p.node).constraints.toList

end

end Seat

/-! ### From operations on trees to computations on the store -/

/-- Running one computation after another is running both at once. -/
theorem TreeM.eval_bind (m : EvalM α) (k : α → EvalM β) (x : World σ) :
    TreeM.eval (m >>= k) x = (TreeM.eval m >>= fun a => TreeM.eval (k a)) x := by
  rw [TreeM.eval, EvalM.run_bind]
  cases h : m.run x.forest.store with
  | mk r s =>
    cases r with
    | ok a =>
      have hm : TreeM.eval m x = .ok a (x.withStore s) := by rw [TreeM.eval, h]; rfl
      rw [bind_of_ok hm]
      rfl
    | error e =>
      have hm : TreeM.eval m x = .error e (x.withStore s) := by rw [TreeM.eval, h]; rfl
      rw [bind_of_error hm]
      rfl

/-- Whether an operation does nothing else on the wrappers of a world, whatever the store, than
a computation does on the store. -/
def TreeM.Means (x : World σ) (m : TreeM σ α) (e : EvalM α) : Prop :=
  ∀ t, m (x.withStore t) = TreeM.eval e (x.withStore t)

namespace TreeM.Means

variable {x : World σ}

theorem pure (a : α) : Means x (Pure.pure a) (Pure.pure a) := fun _ => rfl

theorem eval (e : EvalM α) : Means x (TreeM.eval e) e := fun _ => rfl

theorem bind {m : TreeM σ α} {e : EvalM α} {k : α → TreeM σ β} {k' : α → EvalM β}
    (hm : Means x m e) (hk : ∀ a, Means x (k a) (k' a)) : Means x (m >>= k) (e >>= k') := by
  intro t
  rw [TreeM.eval_bind]
  have hfirst := hm t
  cases h : TreeM.eval e (x.withStore t) with
  | ok a z =>
    obtain ⟨s, rfl⟩ : ∃ s, z = x.withStore s := by
      rw [TreeM.eval] at h
      split at h <;> cases h
      exact ⟨_, rfl⟩
    rw [h] at hfirst
    rw [bind_of_ok hfirst, bind_of_ok h]
    exact hk a s
  | error e z =>
    rw [h] at hfirst
    rw [bind_of_error hfirst, bind_of_error h]

/-- Looking at the forest is looking at the store, as the wrappers are known. -/
theorem look {k : Forest → TreeM σ β} {k' : Store → EvalM β}
    (h : ∀ f : Forest, f.wrappers = x.forest.wrappers → Means x (k f) (k' f.store)) :
    Means x (TreeM.forest >>= k) (EvalM.read id >>= k') := fun t => h (x.withStore t).forest rfl t

theorem isTrue (v : Value) : Means x (TreeM.isTrue v) (EvalM.read (·.truthy v)) := fun _ => rfl

theorem check (f : Store → Except Fault α) : Means x (TreeM.check f) (EvalM.check f) := by
  intro t
  rw [TreeM.check, TreeM.forest_bind]
  cases h : f t with
  | ok a =>
    have hread : f (x.withStore t).forest.store = .ok a := h
    have hrun : EvalM.check f (x.withStore t).forest.store = .done a t := by
      rw [EvalM.check, hread]
      rfl
    rw [hread, TreeM.eval_done hrun]
    rfl
  | error e =>
    have hread : f (x.withStore t).forest.store = .error e := h
    have hrun : EvalM.check f (x.withStore t).forest.store = .failed e (.ended t) := by
      rw [EvalM.check, hread]
      rfl
    rw [hread, TreeM.eval_failed hrun]
    rfl

/-! ### Reads of a living wrapper -/

section Reads

variable {w : WrapperRef}

theorem context : Means x (TreeM.context w w) (x.forest.seat w).context := by
  intro t
  rw [← x.seat_withStore t w, TreeM.context, TreeM.forest_bind, Seat.context, Forest.seat]
  cases (x.withStore t).forest.registry w <;> rfl

theorem checkAlive (hlive : (x.forest.wrapper w).destroyed = false) {m : TreeM σ α} {e : EvalM α}
    (h : Means x m e) : Means x (TreeM.checkAlive w >>= fun _ => m) e := by
  intro t
  rw [bind_of_ok (TreeM.checkAlive_of_live (x := x.withStore t) hlive)]
  exact h t

/-- What succeeds after a look whether a wrapper is alive was done on a living one. -/
theorem live_of_checkAlive {m : TreeM σ α} {a : α} {z : World σ}
    (h : (TreeM.checkAlive w >>= fun _ => m) x = .ok a z) :
    (x.forest.wrapper w).destroyed = false := by
  by_contra hdead
  rw [bind_of_error (TreeM.checkAlive_of_destroyed (by simpa using hdead))] at h
  cases h

/-- The context of a wrapper is that of its seat. -/
theorem context_eq_ok {c : Context} {z : World σ} (h : TreeM.context w w x = .ok c z) :
    ∃ g, (x.forest.seat w).registry = some g ∧ c = (x.forest.seat w).contextWith g := by
  have hseat := (context (x := x) (w := w) x.forest.store).symm.trans h
  rw [Seat.context] at hseat
  cases hg : (x.forest.seat w).registry with
  | none =>
    rw [hg] at hseat
    cases hseat
  | some g =>
    rw [hg] at hseat
    cases hseat
    exact ⟨g, rfl, rfl⟩

variable [Host]

/-- What is evaluated in the context of a wrapper. -/
theorem evaluated {r : NodeRef} {k : Value → TreeM σ β} {k' : Value → EvalM β}
    (hk : ∀ v, Means x (k v) (k' v)) :
    Means x (do
        let c ← TreeM.context w w
        let v ← TreeM.eval (evaluate c r)
        k v)
      (do
        let c ← (x.forest.seat w).context
        let v ← evaluate c r
        k' v) :=
  context.bind fun _ => (eval _).bind hk

omit [Host] in
/-- The node of a wrapper on another store. -/
theorem nodeAt_eq {f : Forest} (hf : f.wrappers = x.forest.wrappers) :
    f.nodeAt w = f.store.node (x.forest.seat w).node := by
  rw [Forest.nodeAt, Forest.wrapper, hf]
  rfl

theorem getConstraint (hlive : (x.forest.wrapper w).destroyed = false) (key : String) :
    Means x (TreeM.getConstraint w key) ((x.forest.seat w).constraint key) := by
  refine checkAlive hlive (look fun f hf => ?_)
  rw [nodeAt_eq hf]
  cases (f.store.node (x.forest.seat w).node).constraints.get? key with
  | none => exact pure true
  | some r =>
    dsimp only
    cases (f.store.node r).value with
    | none => exact pure true
    | node rule => exact evaluated isTrue
    | _ => exact isTrue _

theorem failureMessage (key : String) (rule : NodeRef) :
    Means x (TreeM.failureMessage w key rule) ((x.forest.seat w).message key rule) := by
  refine look fun f hf => ?_
  dsimp only
  cases (f.store.node rule).metadata.get? "message" with
  | none => exact pure _
  | some r =>
    dsimp only
    cases (f.store.node r).value with
    | none => exact pure _
    | node expr => exact evaluated fun v => check _
    | _ => exact check _

theorem validateAll (hlive : (x.forest.wrapper w).destroyed = false) (failures : Failures)
    (l : List (String × NodeRef)) :
    Means x (TreeM.validateAll w failures l) ((x.forest.seat w).checkAll failures l) := by
  induction l generalizing failures with
  | nil => exact pure failures
  | cons p rest ih =>
    refine (getConstraint hlive p.1).bind fun holds => ?_
    cases holds with
    | true => exact ih failures
    | false => exact (failureMessage p.1 p.2).bind fun text => ih _

/-- Validating a living wrapper is finding out what is to be found at its seat. -/
theorem validate (hlive : (x.forest.wrapper w).destroyed = false) :
    Means x (TreeM.validate w) (x.forest.seat w).failures := by
  refine checkAlive hlive (look fun f hf => ?_)
  rw [nodeAt_eq hf]
  exact validateAll hlive _ _

theorem readNode (c : Context) (r : NodeRef) : Means x (TreeM.readNode c r) (c.valueOf r) := by
  refine look fun f hf => ?_
  dsimp only
  split
  · exact eval _
  · cases (f.store.node r).value with
    | node v => exact eval _
    | _ => exact pure _

/-- The value of a living wrapper is that of its seat. -/
theorem getValue (hlive : (x.forest.wrapper w).destroyed = false) :
    Means x (TreeM.getValue w []) (x.forest.seat w).value :=
  checkAlive hlive (context.bind fun c => readNode c c.current)

end Reads

end TreeM.Means

end LiveTree
