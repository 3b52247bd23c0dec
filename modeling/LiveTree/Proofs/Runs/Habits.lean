import LiveTree.Proofs.Runs.Heedless

/-! What evaluations are made of. Apart from what the operators of a host program do, an evaluation
puts arguments in order, and takes steps that fail only for reasons of its own, leave the nodes of a
store and do not go by the argument orders that it remembers. So a habit of computations that these
have, and that putting them together keeps, is a habit of every evaluation, if the host's operators
have it on evaluators that do. -/

namespace LiveTree

variable {α β : Type}

theorem Context.tame_parent (c : Context) (s : Store) (r : NodeRef) : Tame (c.parent s r) := by
  rw [Context.parent]
  split
  · rw [Lookup.parent]
    split
    · exact .ok _
    · split
      exacts [s.tame_findParent _ _, .ok _]
  · exact s.tame_findParent _ _

namespace EvalM

/-- Whether an operation is a step of an evaluation: it fails for a reason of the evaluation's own,
leaves the nodes, and does the same whatever argument orders are remembered. -/
structure Step (f : Store → Except Fault (α × Store)) : Prop where
  tame : ∀ s, LiveTree.Tame (f s)
  sameNodes : ∀ s : Store, s.SameNodes (f s)
  heedless : Store.Heedless f

namespace Step

theorem add (a b : Value) : Step (Store.add · a b) :=
  ⟨(·.tame_add a b), (·.add_sameNodes a b), .add a b⟩

theorem subtract (a b : Value) : Step (Store.subtract · a b) :=
  ⟨(·.tame_subtract a b), (·.subtract_sameNodes a b), .subtract a b⟩

theorem multiply (a b : Value) : Step (Store.multiply · a b) :=
  ⟨(·.tame_multiply a b), (·.multiply_sameNodes a b), .multiply a b⟩

theorem divide (a b : Value) : Step (Store.divide · a b) :=
  ⟨(·.tame_divide a b), (·.divide_sameNodes a b), .divide a b⟩

theorem check {f : Store → Except Fault α} (h : ∀ s, LiveTree.Tame (f s))
    (hf : ∀ s o, f (s.withOrders o) = f s) : Step fun s => (·, s) <$> f s where
  tame s := (h s).map _
  sameNodes s := by
    cases f s with
    | ok a => exact .ok rfl
    | error e => exact .error e
  heedless := .of_check hf

end Step

/-- Whether a property of computations holds of each step, of putting arguments in order, and of what
is put together from computations that it holds of. -/
structure Habit (P : ∀ {α : Type}, EvalM α → Prop) : Prop where
  pure {α : Type} (a : α) : P (Pure.pure a : EvalM α)
  attempt {α : Type} {f : Store → Except Fault (α × Store)} (h : Step f) : P (EvalM.attempt f)
  orderedArguments (r : NodeRef) : P (LiveTree.orderedArguments r)
  bind {α β : Type} {m : EvalM α} {k : α → EvalM β} (hm : P m) (hk : ∀ a, P (k a)) : P (m >>= k)
  orTooDeep {α : Type} {m : EvalM α} (hm : P m) : P (m.mapFault Fault.orTooDeep)

namespace Habit

variable {P : ∀ {α : Type}, EvalM α → Prop}

/-- If it does not matter to a habit whether a step goes by the orders that are remembered, putting
arguments in order is made of steps too. -/
theorem of_attempts (pure : ∀ {α : Type} (a : α), P (Pure.pure a : EvalM α))
    (attempt : ∀ {α : Type} {f : Store → Except Fault (α × Store)}, (∀ s, LiveTree.Tame (f s)) →
      (∀ s : Store, s.SameNodes (f s)) → P (EvalM.attempt f))
    (bind : ∀ {α β : Type} {m : EvalM α} {k : α → EvalM β}, P m → (∀ a, P (k a)) → P (m >>= k))
    (orTooDeep : ∀ {α : Type} {m : EvalM α}, P m → P (m.mapFault Fault.orTooDeep)) : Habit P where
  pure := pure
  attempt h := attempt h.tame h.sameNodes
  orderedArguments r := by
    have hread : ∀ {α : Type} (f : Store → α), P (EvalM.read f) := fun f =>
      attempt (f := fun s => .ok (f s, s)) (fun _ => .ok _) fun _ => .ok rfl
    refine bind (hread _) fun n => bind (hread _) fun order => ?_
    cases order with
    | some keys => exact pure _
    | none =>
      refine bind ?_ fun keys => bind ?_ fun _ => pure _
      · have htame := tame_argumentOrder n.children.keys
        cases h : argumentOrder n.children.keys with
        | ok keys => exact pure keys
        | error e =>
          exact attempt (f := fun _ => .error e) (fun _ => .error (htame e h)) fun _ => .error e
      · exact attempt (f := fun s => .ok ((), s.setArgOrder r keys)) (fun _ => .ok _) fun _ => .ok rfl
  bind := bind
  orTooDeep := orTooDeep

variable (hP : Habit P)

include hP

/-! ### Steps -/

theorem fail {e : Fault} (h : e.Tame) : P (EvalM.fail e : EvalM α) :=
  hP.attempt ⟨fun _ => .error h, fun _ => .error e, fun _ _ => rfl⟩

theorem check {f : Store → Except Fault α} (h : ∀ s, LiveTree.Tame (f s))
    (hf : ∀ s o, f (s.withOrders o) = f s) : P (EvalM.check f) := by
  have hcheck : EvalM.check f = EvalM.attempt fun s => (·, s) <$> f s := by
    funext s
    rw [EvalM.check, EvalM.attempt]
    cases f s <;> rfl
  exact hcheck ▸ hP.attempt (.check h hf)

theorem read {f : Store → α} (hf : ∀ s o, f (s.withOrders o) = f s) : P (EvalM.read f) :=
  hP.check (f := fun s => .ok (f s)) (fun _ => .ok _) fun s o => congrArg _ (hf s o)

theorem update {f : Store → α × Store} (h : ∀ s, (f s).2.nodes = s.nodes)
    (hf : ∀ s o, f (s.withOrders o) = ((f s).1, (f s).2.withOrders o)) : P (EvalM.update f) :=
  hP.attempt ⟨fun _ => .ok _, fun s => .ok (h s), fun s o => congrArg Except.ok (hf s o)⟩

theorem ofExcept {r : Except Fault α} (h : LiveTree.Tame r) : P (EvalM.ofExcept r) :=
  hP.check (fun _ => h) fun _ _ => rfl

theorem mapM {f : α → EvalM β} (h : ∀ a, P (f a)) (l : List α) : P (l.mapM f) := by
  have hloop : ∀ (l : List α) (bs : List β), P (List.mapM.loop f l bs) := by
    intro l
    induction l with
    | nil => exact fun _ => hP.pure _
    | cons a rest ih => exact fun bs => hP.bind (h a) fun b => ih (b :: bs)
  exact hloop l []

/-! ### Operators -/

theorem body (args : List NodeRef) (i : Nat) : P (StandardOp.body args i) := by
  rw [StandardOp.body]
  cases args[i]? with
  | some r => exact hP.pure r
  | none => exact hP.fail (by rintro _ ⟨⟩)

theorem eachIndexed {f : Nat → Value → EvalM α} (hf : ∀ i v, P (f i v)) (i : Nat)
    (l : List Value) : P (StandardOp.eachIndexed f i l) := by
  induction l generalizing i with
  | nil => exact hP.pure _
  | cons v rest ih => exact hP.bind (hf i v) fun a => hP.bind (ih (i + 1)) fun _ => hP.pure _

section Operators

variable {eval : Evaluator} (heval : ∀ c r, P (eval c r)) (c : Context) (args : List NodeRef)

include heval

theorem argument (i : Nat) : P (StandardOp.argument eval c args i) := by
  rw [StandardOp.argument]
  cases args[i]? with
  | some r => exact heval c r
  | none => exact hP.pure _

theorem arithmetic {f : Store → Value → Value → Except Fault (Value × Store)}
    (hf : ∀ a b, Step (f · a b)) : P (StandardOp.arithmetic eval c args f) :=
  hP.bind (hP.argument heval c args 0) fun _ => hP.bind (hP.argument heval c args 1) fun _ =>
    hP.attempt (hf _ _)

theorem quotient : P (StandardOp.quotient eval c args) := by
  refine hP.bind (hP.argument heval c args 0) fun _ => hP.bind (hP.argument heval c args 1)
    fun _ => hP.bind (hP.read fun _ _ => rfl) fun yes => ?_
  split
  exacts [hP.attempt (.divide _ _), hP.pure _]

theorem comparison {f : Store → Value → Value → Except Fault Bool}
    (htame : ∀ s a b, LiveTree.Tame (f s a b))
    (hf : ∀ s o a b, f (s.withOrders o) a b = f s a b) : P (StandardOp.comparison eval c args f) :=
  hP.bind (hP.argument heval c args 0) fun _ => hP.bind (hP.argument heval c args 1) fun _ =>
    hP.bind (hP.check (fun s => tame_lenient (htame s _ _)) fun s o => congrArg _ (hf s o _ _))
      fun _ => hP.pure _

theorem conjunction : P (StandardOp.conjunction eval c args) := by
  induction args with
  | nil => exact hP.pure _
  | cons r rest ih =>
    refine hP.bind (heval c r) fun v => hP.bind (hP.read fun _ _ => rfl) fun yes => ?_
    split
    exacts [ih, hP.pure _]

theorem disjunction : P (StandardOp.disjunction eval c args) := by
  induction args with
  | nil => exact hP.pure _
  | cons r rest ih =>
    refine hP.bind (heval c r) fun v => hP.bind (hP.read fun _ _ => rfl) fun yes => ?_
    split
    exacts [hP.pure _, ih]

theorem ofFirst {f : Store → Value → Except Fault Value} (htame : ∀ s v, LiveTree.Tame (f s v))
    (hf : ∀ s o v, f (s.withOrders o) v = f s v) : P (StandardOp.ofFirst eval c args f) :=
  hP.bind (hP.argument heval c args 0) fun v =>
    hP.check (fun s => htame s v) fun s o => hf s o v

theorem collection : P (StandardOp.collection eval c args) :=
  hP.bind (hP.argument heval c args 0) fun _ => hP.read fun _ _ => rfl

theorem mapped : P (StandardOp.mapped eval c args) :=
  hP.bind (hP.collection heval c args) fun items => hP.bind (hP.body args 1) fun r =>
    hP.bind (hP.eachIndexed (fun _ _ => heval _ r) 0 items) fun _ => hP.update (fun _ => rfl) fun _ _ => rfl

theorem filtered : P (StandardOp.filtered eval c args) :=
  hP.bind (hP.collection heval c args) fun items => hP.bind (hP.body args 1) fun r =>
    hP.bind (hP.eachIndexed (fun _ _ => hP.bind (heval _ r) fun _ => hP.bind (hP.read fun _ _ => rfl) fun _ =>
      hP.pure _) 0 items) fun _ => hP.update (fun _ => rfl) fun _ _ => rfl

theorem folded (r : NodeRef) (acc : Value) (i : Nat) (l : List Value) :
    P (StandardOp.folded eval c r acc i l) := by
  induction l generalizing acc i with
  | nil => exact hP.pure _
  | cons v rest ih => exact hP.bind (heval _ r) fun acc => ih acc (i + 1)

theorem reduced : P (StandardOp.reduced eval c args) :=
  hP.bind (hP.collection heval c args) fun items => hP.bind (hP.body args 1) fun r =>
    hP.bind (hP.argument heval c args 2) fun acc => hP.folded heval c r acc 0 items

theorem apply (op : StandardOp) : P (op.apply eval c args) := by
  have hequal : ∀ (s : Store) a b, LiveTree.Tame (s.equal a b) := fun s => s.tame_equalTo _
  have horder : ∀ rel, P (StandardOp.comparison eval c args (Store.order · rel)) := fun rel =>
    hP.comparison heval c args (fun s => s.tame_orderTo _ _) fun s o => s.order_withOrders o rel
  cases op with
  | add => exact hP.arithmetic heval c args .add
  | sub => exact hP.arithmetic heval c args .subtract
  | mul => exact hP.arithmetic heval c args .multiply
  | div => exact hP.quotient heval c args
  | eq => exact hP.comparison heval c args hequal Store.equal_withOrders
  | neq =>
    exact hP.comparison heval c args (fun s a b => .map (hequal s a b) _) fun s o a b =>
      congrArg _ (s.equal_withOrders o a b)
  | lt | lte | gt | gte => exact horder _
  | and => exact hP.conjunction heval c args
  | or => exact hP.disjunction heval c args
  | choose =>
    refine hP.bind (hP.argument heval c args 0) fun _ => hP.bind (hP.read fun _ _ => rfl) fun yes => ?_
    split
    exacts [hP.argument heval c args 1, hP.argument heval c args 2]
  | concat =>
    exact hP.bind (hP.mapM (heval c) args) fun _ =>
      hP.bind (hP.check (fun s => .mapM s.tame_shownText _) fun s o =>
        congrArg (List.mapM · _) (funext (s.shownText_withOrders o))) fun _ => hP.pure _
  | includes =>
    exact hP.bind (hP.argument heval c args 0) fun _ => hP.bind (hP.argument heval c args 1)
      fun _ => hP.pure _
  | map => exact hP.mapped heval c args
  | filter => exact hP.filtered heval c args
  | reduce => exact hP.reduced heval c args
  | toText =>
    exact hP.ofFirst heval c args (fun s v => .map (s.tame_shownText v) _) fun s o v =>
      congrArg _ (s.shownText_withOrders o v)
  | not | textLength | upper | lower | trim | isNotNull | isNotBlank =>
    exact hP.ofFirst heval c args (fun _ _ => .ok _) fun _ _ _ => rfl

end Operators

/-! ### References -/

theorem bindingStep (v : Value) (seg : Segment) : P (LiveTree.bindingStep v seg) := by
  cases v with
  | node r =>
    cases seg with
    | name word =>
      exact hP.bind (hP.update (·.nodes_field r word) fun s o => s.field_withOrders o r word)
        fun _ => hP.pure _
    | foreign hashable =>
      cases hashable with
      | true => exact hP.pure _
      | false => exact hP.fail nofun
  | dict r => exact hP.bind (hP.read fun _ _ => rfl) fun m => hP.bind (hP.ofExcept (seg.tame_find m)) fun _ => hP.pure _
  | list r | tuple r =>
    refine hP.bind (hP.read fun _ _ => rfl) fun items => hP.bind (hP.ofExcept seg.tame_index?) fun i => ?_
    cases i with
    | some i => exact hP.pure _
    | none => exact hP.pure _
  | _ => exact hP.pure _

theorem followBinding (v : Value) (segs : List Segment) : P (LiveTree.followBinding v segs) := by
  induction segs generalizing v with
  | nil => exact hP.pure v
  | cons seg rest ih =>
    refine hP.bind (hP.bindingStep v seg) fun next => ?_
    cases next with
    | some v => exact ih v
    | none => exact hP.pure _

section

variable {eval : Evaluator} (heval : ∀ c r, P (eval c r)) (c : Context)

include heval

theorem settle (current owner : NodeRef) : P (LiveTree.settle eval c current owner) := by
  refine hP.bind (hP.read fun _ _ => rfl) fun n => ?_
  split
  · exact heval _ _
  · split
    exacts [hP.pure _, heval _ _, hP.pure _]

theorem ownValue (current owner : NodeRef) : P (LiveTree.ownValue eval c current owner) := by
  refine hP.bind (hP.read fun _ _ => rfl) fun n => ?_
  split
  · exact hP.pure _
  · split
    · exact heval _ _
    · split
      exacts [heval _ _, hP.pure _]

theorem walk (current : Option NodeRef) (owner : NodeRef) (segs : List Segment) :
    P (LiveTree.walk eval c current owner segs) := by
  induction segs using Segment.path_induction generalizing current owner with
  | nil =>
    cases current with
    | none => exact hP.pure _
    | some current => exact hP.settle heval c current owner
  | cons seg rest ih =>
    cases current with
    | none => exact hP.pure _
    | some current =>
      have hrest := ih rest (List.suffix_refl rest)
      have hfind : ∀ (key : Segment) (m : Entries NodeRef), P (EvalM.ofExcept (key.find m)) :=
        fun key m => hP.ofExcept (Segment.tame_find m key)
      rw [LiveTree.walk]
      refine hP.bind (hP.read fun _ _ => rfl) fun node => ?_
      split
      · exact hP.ownValue heval c current owner
      · exact hrest _ _
      · exact hP.pure _
      · split
        · exact hP.pure _
        · exact hP.bind (hfind _ _) fun _ => ih _ (List.suffix_cons _ _) _ _
      · split
        · exact hP.pure _
        · exact hP.bind (hfind _ _) fun _ => ih _ (List.suffix_cons _ _) _ _
      · split
        · exact hP.pure _
        · exact hP.bind (hfind _ _) fun _ => ih _ (List.suffix_cons _ _) _ _
      · exact hP.bind
          (hP.check (c.tame_parent · current) fun s o => s.parent_withOrders o c current)
          fun _ => hrest _ _
      · refine hP.bind (hfind _ _) fun child => ?_
        cases child with
        | some child => exact hrest _ _
        | none =>
          refine hP.bind (hfind _ _) fun entry => ?_
          cases entry with
          | some entry => exact hrest _ _
          | none => exact hP.pure _

theorem resolvePath (path : Value) : P (LiveTree.resolvePath eval c path) := by
  refine hP.bind (hP.check (·.tame_segments path) fun s o => s.segments_withOrders o path)
    fun segs => ?_
  cases segs with
  | nil => exact hP.pure _
  | cons start rest =>
    rw [resolveSegments]
    split
    · exact hP.walk heval c _ _ rest
    · split
      · exact hP.walk heval c _ _ rest
      · split
        · exact hP.bind (hP.check (c.tame_parent · _) fun s o => s.parent_withOrders o c _) fun _ =>
            hP.walk heval c _ _ rest
        · have hwalk := hP.walk heval c (some c.current) c.current (start :: rest)
          cases c.bindings with
          | some bindings =>
            refine hP.bind (hP.ofExcept (start.tame_find bindings)) fun bound => ?_
            cases bound with
            | some v => exact hP.followBinding v rest
            | none => exact hwalk
          | none => exact hwalk

end

/-! ### Evaluation -/

section

variable [host : Host]
  (hhost : ∀ name eval, (∀ c r, P (eval c r)) → ∀ c args, P (host.call name eval c args))

include hhost

theorem evaluateWithin (n : Nat) (c : Context) (r : NodeRef) : P (LiveTree.evaluateWithin n c r) := by
  induction n generalizing c r with
  | zero => exact hP.fail nofun
  | succ n ih =>
    rw [LiveTree.evaluateWithin]
    refine hP.bind (hP.read fun _ _ => rfl) fun node => ?_
    split
    · exact hP.resolvePath ih _ _
    · split
      · exact hP.fail nofun
      · rename_i op _
        refine hP.bind (hP.orderedArguments r) fun args => ?_
        cases op with
        | standard op => exact hP.apply ih _ args op
        | constant v => exact hP.pure v
        | host name => exact hhost name _ ih _ args
    · exact hP.pure _

/-- Every evaluation has a habit that the operators of the host have on evaluators that have it. -/
theorem evaluate (c : Context) (r : NodeRef) : P (LiveTree.evaluate c r) :=
  hP.orTooDeep (hP.evaluateWithin hhost _ c r)

end

end Habit

end EvalM

end LiveTree
