import LiveTree.Proofs.Eval.Follows

/-! The standard operators side by side. An operator evaluates its arguments in the context that it
was given, with more loop variables at most, and adds only lists and tuples to the store, so with
an evaluator that follows another it follows itself. -/

namespace LiveTree

variable {α β : Type} {nodes : Array Node} {s t : Store}

/-! ### Arithmetic leaves the nodes as they are -/

namespace Store

/-- Whether what an operation gives, if anything, comes with a store of the same nodes. -/
def SameNodes (s : Store) (r : Except Fault (α × Store)) : Prop :=
  ∀ a t, r = .ok (a, t) → t.nodes = s.nodes

theorem SameNodes.ok {a : α} (h : t.nodes = s.nodes) : s.SameNodes (.ok (a, t)) := by
  rintro _ _ ⟨⟩
  exact h

theorem SameNodes.error (e : Fault) : s.SameNodes (.error e : Except Fault (α × Store)) :=
  fun _ _ h => nomatch h

theorem SameNodes.bind {r : Except Fault β} {k : β → Except Fault (α × Store)}
    (h : ∀ b, s.SameNodes (k b)) : s.SameNodes (r >>= k) := by
  cases r with
  | ok b => exact h b
  | error e => exact .error e

theorem add_sameNodes (a b : Value) : s.SameNodes (s.add a b) := by
  unfold add
  split
  · exact .bind fun _ => .ok rfl
  · split
    · exact .ok rfl
    · exact .ok rfl
    · exact .ok rfl
    · exact .error _

theorem subtract_sameNodes (a b : Value) : s.SameNodes (s.subtract a b) := by
  unfold subtract
  split
  · exact .bind fun _ => .ok rfl
  · exact .error _

theorem repeatValue_sameNodes (n : Int) (a : Value) : s.SameNodes (s.repeatValue n a) := by
  unfold repeatValue
  split
  · exact .bind fun _ => .ok rfl
  · exact .bind fun _ => .ok rfl
  · exact .bind fun _ => .ok rfl
  · exact .error _

theorem multiply_sameNodes (a b : Value) : s.SameNodes (s.multiply a b) := by
  unfold multiply
  split
  · exact .bind fun _ => .ok rfl
  · split
    · exact repeatValue_sameNodes _ _
    · exact repeatValue_sameNodes _ _
    · exact .error _

theorem divide_sameNodes (a b : Value) : s.SameNodes (s.divide a b) := by
  unfold divide
  split
  · exact .bind fun _ => .ok rfl
  · exact .error _

/-- Reading a field makes a dictionary at most. -/
theorem nodes_field (r : NodeRef) (word : String) : (s.field r word).2.nodes = s.nodes := by
  unfold field
  dsimp only
  repeat' split
  all_goals rfl

end Store

namespace StandardOp

variable {eval eval' : Evaluator} {c c' : Context}

section

variable (heval : eval.Follows nodes eval') (hc : c.Agrees nodes c')

include heval hc

theorem argument_follows (args : List NodeRef) (i : Nat) :
    Follows nodes (argument eval c args i) (argument eval' c' args i) := by
  rw [argument, argument]
  cases args[i]? with
  | some r => exact heval c c' r hc
  | none => exact .pure _

theorem arithmetic_follows (args : List NodeRef)
    {f : Store → Value → Value → Except Fault (Value × Store)}
    (hf : ∀ s a b, Store.SameNodes s (f s a b)) :
    Follows nodes (arithmetic eval c args f) (arithmetic eval' c' args f) :=
  .bind (argument_follows heval hc args 0) fun a =>
    .bind (argument_follows heval hc args 1) fun b => .attempt fun s => hf s a.orZero b.orZero

theorem quotient_follows (args : List NodeRef) :
    Follows nodes (quotient eval c args) (quotient eval' c' args) := by
  refine .bind (argument_follows heval hc args 0) fun a => ?_
  refine .bind (argument_follows heval hc args 1) fun b => .bind (.read _) fun yes => ?_
  split
  · exact .attempt fun s => Store.divide_sameNodes a.orZero b
  · exact .pure _

theorem comparison_follows (args : List NodeRef) (f : Store → Value → Value → Except Fault Bool) :
    Follows nodes (comparison eval c args f) (comparison eval' c' args f) :=
  .bind (argument_follows heval hc args 0) fun _ =>
    .bind (argument_follows heval hc args 1) fun _ => .bind (.check fun _ _ => rfl) fun _ => .pure _

theorem conjunction_follows (args : List NodeRef) :
    Follows nodes (conjunction eval c args) (conjunction eval' c' args) := by
  induction args with
  | nil => exact .pure _
  | cons r rest ih =>
    refine .bind (heval c c' r hc) fun v => .bind (.read _) fun yes => ?_
    split
    · exact ih
    · exact .pure _

theorem disjunction_follows (args : List NodeRef) :
    Follows nodes (disjunction eval c args) (disjunction eval' c' args) := by
  induction args with
  | nil => exact .pure _
  | cons r rest ih =>
    refine .bind (heval c c' r hc) fun v => .bind (.read _) fun yes => ?_
    split
    · exact .pure _
    · exact ih

theorem ofFirst_follows (args : List NodeRef) (f : Store → Value → Except Fault Value) :
    Follows nodes (ofFirst eval c args f) (ofFirst eval' c' args f) :=
  .bind (argument_follows heval hc args 0) fun _ => .check fun _ _ => rfl

theorem choose_follows (args : List NodeRef) :
    Follows nodes (apply eval c args choose) (apply eval' c' args choose) := by
  refine .bind (argument_follows heval hc args 0) fun v => .bind (.read _) fun yes => ?_
  split
  · exact argument_follows heval hc args 1
  · exact argument_follows heval hc args 2

theorem concat_follows (args : List NodeRef) :
    Follows nodes (apply eval c args concat) (apply eval' c' args concat) :=
  .bind (.mapM (fun r => heval c c' r hc) args) fun _ =>
    .bind (.check fun _ _ => rfl) fun _ => .pure _

theorem includes_follows (args : List NodeRef) :
    Follows nodes (apply eval c args includes) (apply eval' c' args includes) :=
  .bind (argument_follows heval hc args 0) fun _ =>
    .bind (argument_follows heval hc args 1) fun _ => .pure _

theorem collection_follows (args : List NodeRef) :
    Follows nodes (collection eval c args) (collection eval' c' args) :=
  .bind (argument_follows heval hc args 0) fun _ => .read _

theorem folded_follows (r : NodeRef) (acc : Value) (i : Nat) (l : List Value) :
    Follows nodes (folded eval c r acc i l) (folded eval' c' r acc i l) := by
  induction l generalizing acc i with
  | nil => exact .pure _
  | cons v rest ih => exact .bind (heval _ _ r (hc.withBindings _)) fun acc => ih acc (i + 1)

end

theorem body_follows (args : List NodeRef) (i : Nat) :
    Follows nodes (body args i) (body args i) := by
  rw [body]
  cases args[i]? with
  | some r => exact .pure _
  | none => exact .fail _

theorem eachIndexed_follows {f f' : Nat → Value → EvalM α}
    (hf : ∀ i v, Follows nodes (f i v) (f' i v)) (i : Nat) (l : List Value) :
    Follows nodes (eachIndexed f i l) (eachIndexed f' i l) := by
  induction l generalizing i with
  | nil => exact .pure _
  | cons v rest ih => exact .bind (hf i v) fun a => .bind (ih (i + 1)) fun _ => .pure _

theorem mapped_follows (heval : eval.Follows nodes eval') (hc : c.Agrees nodes c')
    (args : List NodeRef) : Follows nodes (mapped eval c args) (mapped eval' c' args) := by
  refine .bind (collection_follows heval hc args) fun items => ?_
  refine .bind (body_follows args 1) fun r => ?_
  refine .bind (eachIndexed_follows (fun i v => ?_) 0 items) fun values => .update fun _ => rfl
  exact heval _ _ r (hc.withBindings _)

theorem filtered_follows (heval : eval.Follows nodes eval') (hc : c.Agrees nodes c')
    (args : List NodeRef) : Follows nodes (filtered eval c args) (filtered eval' c' args) := by
  refine .bind (collection_follows heval hc args) fun items => ?_
  refine .bind (body_follows args 1) fun r => ?_
  refine .bind (eachIndexed_follows (fun i v => ?_) 0 items) fun kept => .update fun _ => rfl
  exact .bind (heval _ _ r (hc.withBindings _)) fun result => .bind (.read _) fun _ => .pure _

theorem reduced_follows (heval : eval.Follows nodes eval') (hc : c.Agrees nodes c')
    (args : List NodeRef) : Follows nodes (reduced eval c args) (reduced eval' c' args) :=
  .bind (collection_follows heval hc args) fun items => .bind (body_follows args 1) fun r =>
    .bind (argument_follows heval hc args 2) fun acc => folded_follows heval hc r acc 0 items

/-- Every standard operator follows itself. -/
theorem apply_follows (heval : eval.Follows nodes eval') (hc : c.Agrees nodes c')
    (args : List NodeRef) (op : StandardOp) :
    Follows nodes (op.apply eval c args) (op.apply eval' c' args) := by
  cases op with
  | add => exact arithmetic_follows heval hc args fun _ => Store.add_sameNodes
  | sub => exact arithmetic_follows heval hc args fun _ => Store.subtract_sameNodes
  | mul => exact arithmetic_follows heval hc args fun _ => Store.multiply_sameNodes
  | div => exact quotient_follows heval hc args
  | eq | neq | lt | lte | gt | gte => exact comparison_follows heval hc args _
  | and => exact conjunction_follows heval hc args
  | or => exact disjunction_follows heval hc args
  | choose => exact choose_follows heval hc args
  | concat => exact concat_follows heval hc args
  | includes => exact includes_follows heval hc args
  | map => exact mapped_follows heval hc args
  | filter => exact filtered_follows heval hc args
  | reduce => exact reduced_follows heval hc args
  | not | toText | textLength | upper | lower | trim | isNotNull | isNotBlank =>
    exact ofFirst_follows heval hc args _

end StandardOp

end LiveTree
