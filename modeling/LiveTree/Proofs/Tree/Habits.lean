import LiveTree.Proofs.Reads.Again
import LiveTree.Proofs.Tree.Revision

/-! What operations on wrappers are made of. Apart from those that make, add, remove or destroy
something, they are put together from a few steps: looking, failing, asking for children, tuning a
wrapper, setting a value, making values, and evaluating. So a habit of operations that such steps
have, and that putting them together keeps, is a habit of visits, of announcements, of changes of
values and of all reads. Wrappers are asked for children only if they have been made, so a habit goes
by how many there are. -/

namespace LiveTree

variable {σ α β ν : Type}

namespace TreeM

/-- Whether a property of operations, given so many wrappers at least, holds of each step and of
what is put together from operations that it holds of. -/
structure Habit (P : ∀ {α : Type}, ℕ → TreeM σ α → Prop) : Prop where
  pure {α : Type} {n : ℕ} (a : α) : P n (Pure.pure a : TreeM σ α)
  throw {α : Type} {n : ℕ} (e : Fault) : P n (MonadExcept.throw e : TreeM σ α)
  bind {α β : Type} {n : ℕ} {m : TreeM σ α} {k : α → TreeM σ β} (hm : P n m)
    (hk : ∀ a, P n (k a)) : P n (m >>= k)
  tryCatch {α : Type} {n : ℕ} {m : TreeM σ α} {handler : Fault → TreeM σ α} (hm : P n m)
    (hh : ∀ e, P n (handler e)) : P n (MonadExcept.tryCatch m handler)
  forest {n : ℕ} : P n (TreeM.forest : TreeM σ Forest)
  /-- What is found has been made by the time that things go on with it. -/
  child {β : Type} {n : ℕ} {w : WrapperRef} (hw : w.index < n) (key : String)
    {k : Option WrapperRef → TreeM σ β} (hnone : P n (k none))
    (hsome : ∀ c m, n ≤ m → c.index < m → P m (k (some c))) :
    P n (updateForest (·.child w key) >>= k)
  descend {β : Type} {n : ℕ} {w : WrapperRef} (hw : w.index < n) (path : Path)
    {k : Option WrapperRef → TreeM σ β} (hnone : P n (k none))
    (hsome : ∀ c m, n ≤ m → c.index < m → P m (k (some c))) : P n (TreeM.descend w path >>= k)
  tune {α : Type} {n : ℕ} (w : WrapperRef) {op : Forest → α × Forest}
    (h : ∀ f : Forest, ∃ u : Wrapper → Wrapper, (f.wrapper w).SamePlace (u (f.wrapper w)) ∧
      (op f).2 = f.modifyWrapper w u) : P n (updateForest op)
  putValue {n : ℕ} (w : WrapperRef) (v : Value) :
    P n (modifyForest (·.modifyNodeAt w fun x => { x with value := v }) : TreeM σ Unit)
  copyValue {n : ℕ} (v : Value) : P n (build (LiveTree.copyValue v) : TreeM σ Value)
  newDict {n : ℕ} (d : Entries Value) : P n (TreeM.newDict d : TreeM σ Value)

namespace Habit

variable {P : ∀ {α : Type}, ℕ → TreeM σ α → Prop} (hP : Habit P) {n : ℕ} {v w : WrapperRef}

include hP

theorem tuneWrapper (w : WrapperRef) {u : Wrapper → Wrapper} (hu : ∀ x : Wrapper, x.SamePlace (u x)) :
    P n (modifyForest (·.modifyWrapper w u) : TreeM σ Unit) := by
  show P n (updateForest fun f => ((), f.modifyWrapper w u))
  exact hP.tune w fun f => ⟨u, hu _, rfl⟩

theorem checkAlive (w : WrapperRef) : P n (TreeM.checkAlive w : TreeM σ Unit) := by
  refine hP.bind hP.forest fun f => ?_
  split
  exacts [hP.throw _, hP.pure _]

theorem check (g : Store → Except Fault α) : P n (TreeM.check g : TreeM σ α) := by
  refine hP.bind hP.forest fun f => ?_
  cases g f.store with
  | ok a => exact hP.pure a
  | error e => exact hP.throw e

/-! ### Visits -/

theorem childKeys (w : WrapperRef) : P n (TreeM.childKeys w : TreeM σ (List String)) :=
  hP.bind hP.forest fun _ => hP.pure _

theorem visitDepth : P n (TreeM.visitDepth : TreeM σ ℕ) := hP.bind hP.forest fun _ => hP.pure _

omit hP in
/-- Whether a visitor has a habit at each wrapper that has been made by then. -/
def Visits (P : ∀ {α : Type}, ℕ → TreeM σ α → Prop) (n : ℕ) (go : Visitor σ β) : Prop :=
  ∀ m, n ≤ m → ∀ a c path, c.index < m → P m (go a c path)

theorem intoChildren {go : Visitor σ β} (hgo : Visits P n go) (hv : v.index < n) (path : Path)
    (keys : List String) (a : β) : P n (TreeM.intoChildren go v path keys a) := by
  induction keys generalizing n a with
  | nil => exact hP.pure _
  | cons key rest ih =>
    refine hP.child hv key (ih hgo hv a) fun c m hm hc => ?_
    refine hP.bind (hgo m hm a c _ hc) fun step => ?_
    cases step with
    | done a => exact hP.pure _
    | yield a => exact ih (fun k hk => hgo k (Nat.le_trans hm hk)) (Nat.lt_of_lt_of_le hv hm) a

theorem preOrderTo {visit : Visitor σ β} (hvisit : Visits P n visit) (depth : ℕ) :
    Visits P n (TreeM.preOrderTo visit depth) := by
  induction depth with
  | zero => exact fun _ _ _ _ _ _ => hP.throw _
  | succ depth ih =>
    intro m hm a c path hc
    refine hP.bind (hvisit m hm a c path hc) fun step => ?_
    cases step with
    | done a => exact hP.pure _
    | yield a =>
      refine hP.bind (hP.childKeys c) fun keys => ?_
      exact hP.intoChildren (fun k hk => ih k (Nat.le_trans hm hk)) hc path keys a

theorem preOrder {visit : Visitor σ β} (hvisit : Visits P n visit) (hv : v.index < n) (a : β) :
    P n (TreeM.preOrder v a visit) :=
  hP.bind hP.visitDepth fun depth =>
    hP.bind (hP.preOrderTo hvisit depth n (Nat.le_refl n) a v [] hv) fun _ => hP.pure _

theorem select (hv : v.index < n) {test : WrapperRef → TreeM σ Bool}
    (htest : ∀ m, n ≤ m → ∀ c, c.index < m → P m (test c)) : P n (TreeM.select v test) :=
  hP.preOrder (fun m hm _ c _ hc => hP.bind (htest m hm c hc) fun _ => hP.pure _) hv []

theorem count (hv : v.index < n) : P n (TreeM.count v : TreeM σ ℕ) :=
  hP.bind (hP.select hv fun _ _ _ _ => hP.pure _) fun _ => hP.pure _

theorem find (hv : v.index < n) {test : WrapperRef → TreeM σ Bool}
    (htest : ∀ m, n ≤ m → ∀ c, c.index < m → P m (test c)) : P n (TreeM.find v test) := by
  refine hP.preOrder (fun m hm _ c _ hc => hP.bind (htest m hm c hc) fun passes => ?_) hv none
  cases passes with
  | true => exact hP.pure _
  | false => exact hP.pure _

theorem printChildren {go : ℤ → WrapperRef → TreeM σ (List String)}
    (hgo : ∀ m, n ≤ m → ∀ i c, c.index < m → P m (go i c)) (hv : v.index < n) (indent : ℤ)
    (keys : List String) : P n (TreeM.printChildren go indent v keys) := by
  induction keys generalizing n with
  | nil => exact hP.pure _
  | cons key rest ih =>
    refine hP.child hv key (ih hgo hv) fun c m hm hc => hP.bind (hgo m hm _ c hc) fun _ => ?_
    exact hP.bind (ih (fun k hk => hgo k (Nat.le_trans hm hk)) (Nat.lt_of_lt_of_le hv hm))
      fun _ => hP.pure _

theorem printTo (depth : ℕ) (indent : ℤ) (hv : v.index < n) :
    P n (TreeM.printTo depth indent v : TreeM σ (List String)) := by
  induction depth generalizing n v indent with
  | zero => exact hP.throw _
  | succ depth ih =>
    have hrest : ∀ (line : String), P n (do
        return line :: (← TreeM.printChildren (TreeM.printTo depth) indent v (← TreeM.childKeys v))
        : TreeM σ (List String)) := fun line => hP.bind (hP.childKeys v) fun keys =>
      hP.bind (hP.printChildren (fun _ _ i _ hc => ih i hc) hv indent keys) fun _ => hP.pure _
    refine hP.bind hP.forest fun f => ?_
    dsimp only
    split
    · exact hrest _
    · exact hP.bind (hP.check _) fun d => hP.bind (hP.check _) fun _ => hrest _

theorem printTree (hv : v.index < n) (indent : ℤ) :
    P n (TreeM.printTree v indent : TreeM σ String) :=
  hP.bind hP.visitDepth fun depth => hP.bind (hP.printTo depth indent hv) fun _ => hP.pure _

theorem toForm (v : WrapperRef) : P n (TreeM.toForm v : TreeM σ (Data ν)) :=
  hP.bind hP.forest fun _ => hP.check _

theorem equals (v w : WrapperRef) : P n (TreeM.equals v w : TreeM σ Bool) :=
  hP.bind hP.forest fun _ => hP.check _

/-! ### Announcements -/

section Announcing

variable {notify : Notify σ} (hnotify : ∀ listener paths, P n (notify listener paths))

include hnotify

theorem tell (paths : List String) (l : List Subscriber) : P n (TreeM.tell notify paths l) := by
  induction l with
  | nil => exact hP.pure _
  | cons x rest ih =>
    rw [TreeM.tell]
    dsimp only
    split
    exacts [ih, hP.bind (hnotify _ _) fun _ => ih]

theorem emitTo (k : ℕ) (w : WrapperRef) (paths : List Path) :
    P n (TreeM.emitTo notify k w paths) := by
  induction k generalizing w paths with
  | zero => exact hP.pure _
  | succ k ih =>
    refine hP.bind hP.forest fun f => ?_
    dsimp only
    split
    · exact hP.tuneWrapper w fun _ => ⟨rfl, rfl, rfl, rfl, rfl⟩
    · refine hP.bind (hP.tell hnotify _ _) fun _ => hP.bind hP.forest fun f => ?_
      split
      exacts [ih _ _, hP.pure _]

theorem emit (w : WrapperRef) (paths : List Path) : P n (TreeM.emit notify w paths) :=
  hP.emitTo hnotify _ w paths

theorem batch (w : WrapperRef) {body : TreeM σ α} (hbody : P n body) :
    P n (TreeM.batch notify w body) := by
  have hset : ∀ held, P n (TreeM.setBatched w held : TreeM σ Unit) := fun held =>
    hP.tuneWrapper w fun _ => ⟨rfl, rfl, rfl, rfl, rfl⟩
  refine hP.bind (hP.checkAlive w) fun _ => hP.bind hP.forest fun f => ?_
  split
  · exact hbody
  · refine hP.bind (hset _) fun _ => hP.bind (hP.tryCatch hbody fun e => ?_) fun result => ?_
    · exact hP.bind (hset _) fun _ => hP.throw e
    · refine hP.bind hP.forest fun f => hP.bind (hset _) fun _ => ?_
      split
      exacts [hP.pure _, hP.bind (hP.emit hnotify w _) fun _ => hP.pure _]

/-- A change has the habit, if what it does apart from telling anybody has it. -/
theorem perform (e : Revision) (he : P n (e.apply v)) : P n (e.perform notify v) := by
  rw [Revision.perform_eq]
  refine hP.bind he fun paths => ?_
  rw [Revision.announce]
  split
  exacts [hP.pure _, hP.emit hnotify v paths]

end Announcing

theorem subscribe (v : WrapperRef) (listener : ℕ) (filter : Option PathFilter) :
    P n (TreeM.subscribe v listener filter : TreeM σ ℕ) :=
  hP.bind (hP.checkAlive v) fun _ => hP.tune v fun f =>
    ⟨fun x => { x with
      issued := (f.wrapper v).issued + 1
      subscribers := x.subscribers ++ [⟨(f.wrapper v).issued + 1, listener, filter⟩] },
      ⟨rfl, rfl, rfl, rfl, rfl⟩, rfl⟩

theorem unsubscribe (v : WrapperRef) (number : ℕ) :
    P n (TreeM.unsubscribe v number : TreeM σ Unit) :=
  hP.tuneWrapper v fun _ => ⟨rfl, rfl, rfl, rfl, rfl⟩

/-! ### Changes of values -/

theorem applyValue (hv : v.index < n) (a : Value) (path : Path) (silent : Bool) :
    P n (Revision.applyValue v a path silent : TreeM σ (List Path)) :=
  hP.bind (hP.checkAlive v) fun _ => hP.descend hv path (hP.pure _) fun target _ _ _ =>
    hP.bind (hP.putValue target a) fun _ => hP.pure _

theorem hasDefault (v : WrapperRef) : P n (TreeM.hasDefault v : TreeM σ Bool) :=
  hP.bind hP.forest fun _ => hP.pure _

theorem applyReset (hv : v.index < n) (silent : Bool) :
    P n (Revision.applyReset v silent : TreeM σ (List Path)) := by
  refine hP.bind (hP.checkAlive v) fun _ => hP.bind (hP.hasDefault v) fun has => ?_
  cases has with
  | false => exact hP.pure _
  | true =>
    exact hP.bind hP.forest fun _ => hP.bind (hP.copyValue _) fun a => hP.applyValue hv a [] silent

theorem applyResetDeep (hv : v.index < n) (silent : Bool) :
    P n ((Revision.resetDeep silent).apply v : TreeM σ (List Path)) := by
  refine hP.bind (hP.checkAlive v) fun _ =>
    hP.bind (hP.preOrder (fun m _ changed c path hc => ?_) hv []) fun _ => hP.pure _
  refine hP.bind (hP.hasDefault c) fun has => ?_
  cases has with
  | false => exact hP.pure _
  | true => exact hP.bind (hP.applyReset hc true) fun _ => hP.pure _

theorem applyEmitChange (v : WrapperRef) (path : Path) :
    P n ((Revision.emitChange path).apply v : TreeM σ (List Path)) :=
  hP.bind (hP.checkAlive v) fun _ => hP.pure _

/-! ### Reads -/

theorem context (v target : WrapperRef) : P n (TreeM.context v target : TreeM σ Context) := by
  refine hP.bind hP.forest fun f => ?_
  split
  exacts [hP.throw _, hP.pure _]

theorem isTrue (a : Value) : P n (TreeM.isTrue a : TreeM σ Bool) :=
  hP.bind hP.forest fun _ => hP.pure _

section Reads

variable [Host] (heval : ∀ {n : ℕ} c r, P n (TreeM.eval (evaluate c r) : TreeM σ Value))

include heval

theorem readNode (c : Context) (r : NodeRef) : P n (TreeM.readNode c r : TreeM σ Value) := by
  refine hP.bind hP.forest fun f => ?_
  dsimp only
  split
  · exact heval _ _
  · split
    exacts [heval _ _, hP.pure _]

theorem getValue (hv : v.index < n) (path : Path) :
    P n (TreeM.getValue v path : TreeM σ Value) :=
  hP.bind (hP.checkAlive v) fun _ => hP.descend hv path (hP.pure _) fun target _ _ _ =>
    hP.bind (hP.context v target) fun c => hP.readNode heval c c.current

theorem getMetadata (v : WrapperRef) (key : String) :
    P n (TreeM.getMetadata v key : TreeM σ Value) := by
  refine hP.bind (hP.checkAlive v) fun _ => hP.bind hP.forest fun f => ?_
  split
  exacts [hP.pure _, hP.bind (hP.context v v) fun c => hP.readNode heval c _]

theorem getConstraint (v : WrapperRef) (key : String) :
    P n (TreeM.getConstraint v key : TreeM σ Bool) := by
  refine hP.bind (hP.checkAlive v) fun _ => hP.bind hP.forest fun f => ?_
  split
  · exact hP.pure _
  · split
    · exact hP.pure _
    · exact hP.bind (hP.context v v) fun c => hP.bind (heval _ _) hP.isTrue
    · exact hP.isTrue _

theorem failureMessage (v : WrapperRef) (key : String) (rule : NodeRef) :
    P n (TreeM.failureMessage v key rule : TreeM σ String) := by
  refine hP.bind hP.forest fun f => ?_
  dsimp only
  split
  · exact hP.pure _
  · split
    · exact hP.pure _
    · exact hP.bind (hP.context v v) fun c => hP.bind (heval _ _) fun a => hP.check _
    · exact hP.check _

theorem validateAll (v : WrapperRef) (l : List (String × NodeRef)) (failures : Failures) :
    P n (TreeM.validateAll v failures l : TreeM σ Failures) := by
  induction l generalizing failures with
  | nil => exact hP.pure _
  | cons p rest ih =>
    refine hP.bind (hP.getConstraint heval v p.1) fun holds => ?_
    cases holds with
    | true => exact ih failures
    | false => exact hP.bind (hP.failureMessage heval v p.1 p.2) fun _ => ih _

theorem validate (v : WrapperRef) : P n (TreeM.validate v : TreeM σ Failures) :=
  hP.bind (hP.checkAlive v) fun _ => hP.bind hP.forest fun _ => hP.validateAll heval v _ _

theorem validateEach (l : List (WrapperRef × Path)) (failures : Entries Failures) :
    P n (TreeM.validateEach failures l : TreeM σ (Entries Failures)) := by
  induction l generalizing failures with
  | nil => exact hP.pure _
  | cons p rest ih =>
    refine hP.bind (hP.validate heval p.1) fun found => ?_
    split
    exacts [ih failures, ih _]

theorem validateDeep (hv : v.index < n) :
    P n (TreeM.validateDeep v : TreeM σ (Entries Failures)) :=
  hP.bind (hP.checkAlive v) fun _ =>
    hP.bind (hP.select hv fun _ _ _ _ => hP.pure _) fun l => hP.validateEach heval l _

theorem snapshotChildren {go : WrapperRef → TreeM σ Value}
    (hgo : ∀ m, n ≤ m → ∀ c, c.index < m → P m (go c)) (hv : v.index < n)
    (keys : List String) (d : Entries Value) : P n (TreeM.snapshotChildren go v d keys) := by
  induction keys generalizing n d with
  | nil => exact hP.pure _
  | cons key rest ih =>
    refine hP.child hv key (ih hgo hv d) fun c m hm hc => ?_
    have hrest := fun d => ih (fun k hk => hgo k (Nat.le_trans hm hk)) (Nat.lt_of_lt_of_le hv hm) d
    refine hP.bind hP.forest fun f => ?_
    dsimp only
    split
    exacts [hP.bind (hgo m hm c hc) fun _ => hrest _,
      hP.bind (hP.getValue heval hc []) fun _ => hrest _]

theorem snapshotTo (depth : ℕ) (hv : v.index < n) :
    P n (TreeM.snapshotTo depth v : TreeM σ Value) := by
  induction depth generalizing n v with
  | zero => exact hP.throw _
  | succ depth ih =>
    have hgo : ∀ m, n ≤ m → ∀ c, c.index < m →
        P m (TreeM.snapshotTo depth c : TreeM σ Value) := fun m _ c hc => ih hc
    refine hP.bind hP.forest fun f => ?_
    dsimp only
    split
    · exact hP.getValue heval hv []
    · split
      · exact hP.bind (hP.childKeys v) fun keys =>
          hP.bind (hP.snapshotChildren heval hgo hv keys _) hP.newDict
      · refine hP.bind (hP.getValue heval hv []) fun a => hP.bind (hP.childKeys v) fun keys => ?_
        split
        exacts [hP.pure _, hP.bind (hP.snapshotChildren heval hgo hv keys _) hP.newDict]

theorem snapshot (hv : v.index < n) : P n (TreeM.snapshot v : TreeM σ Value) :=
  hP.bind (hP.checkAlive v) fun _ => hP.bind hP.visitDepth fun depth => hP.snapshotTo heval depth hv

/-- Every read has a habit that evaluations have, except that a clone is a node made anew. -/
theorem read (hclone : P n (TreeM.clone v : TreeM σ WrapperRef)) (hv : v.index < n) (r : Read) :
    P n (r.run v : TreeM σ Answer) := by
  cases r with
  | value path => exact hP.bind (hP.getValue heval hv path) fun _ => hP.pure _
  | metadata key => exact hP.bind (hP.getMetadata heval v key) fun _ => hP.pure _
  | constraint key => exact hP.bind (hP.getConstraint heval v key) fun _ => hP.pure _
  | validate => exact hP.bind (hP.validate heval v) fun _ => hP.pure _
  | validateDeep => exact hP.bind (hP.validateDeep heval hv) fun _ => hP.pure _
  | snapshot => exact hP.bind (hP.snapshot heval hv) fun _ => hP.pure _
  | form => exact hP.bind (hP.toForm v) fun _ => hP.pure _
  | clone => exact hP.bind hclone fun _ => hP.pure _
  | equals w => exact hP.bind (hP.equals v w) fun _ => hP.pure _
  | print indent => exact hP.bind (hP.printTree hv indent) fun _ => hP.pure _
  | count => exact hP.bind (hP.count hv) fun _ => hP.pure _
  | find test =>
    exact hP.bind (hP.find hv fun _ _ _ _ => hP.bind hP.forest fun _ => hP.pure _) fun _ => hP.pure _

end Reads

end Habit

end TreeM

end LiveTree
