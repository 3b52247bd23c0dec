import LiveTree.Proofs.Eval.CallOrder
import LiveTree.Proofs.Runs.Agreement
import LiveTree.Proofs.Runs.Calm

/-! Negated conjunctions and disjunctions. The negation of a conjunction and the disjunction of the
negations both look for the first argument that does not count as true, two levels further in, and
negating a disjunction is a search for the first that does. So each of the two is the same survey of
the arguments; they differ only in which of the nodes made for them come to be remembered. -/

namespace LiveTree

open Store

/-! ### Surveys -/

/-- Whether some argument has a truth value. They are evaluated in turn, up to the first that has
it. -/
def Evaluator.meets (eval : Evaluator) (c : Context) (yes : Bool) : List NodeRef → EvalM Bool
  | [] => return false
  | r :: rest => do
    let v ← eval c r
    if (← EvalM.read (·.truthy v)) = yes then return true else eval.meets c yes rest

/-- What negating a conjunction or a disjunction comes to: a survey of its arguments. -/
def Evaluator.negated (eval : Evaluator) (c : Context) (yes : Bool) (xs : List NodeRef) :
    EvalM Value := do
  return .bool ((← eval.meets c yes xs) != yes)

/-- The operator that goes by whether some argument has a truth value. -/
def StandardOp.goingBy (yes : Bool) : StandardOp := if yes then .or else .and

section

variable {eval eval' : Evaluator} {c : Context} {yes : Bool}

theorem Evaluator.meets_mapFault {f : Fault → Fault} (h : ∀ r, eval' c r = (eval c r).mapFault f)
    (xs : List NodeRef) : eval'.meets c yes xs = (eval.meets c yes xs).mapFault f := by
  induction xs with
  | nil => rfl
  | cons x rest ih =>
    rw [meets, meets, h, EvalM.mapFault_bind]
    refine bind_congr fun v => ?_
    rw [EvalM.mapFault_bind]
    refine bind_congr fun b => ?_
    split
    exacts [rfl, ih]

theorem Evaluator.negated_mapFault {f : Fault → Fault}
    (h : ∀ r, eval' c r = (eval c r).mapFault f) (xs : List NodeRef) :
    eval'.negated c yes xs = (eval.negated c yes xs).mapFault f := by
  rw [negated, meets_mapFault h, negated, EvalM.mapFault_bind]
  rfl

/-- A conjunction and a disjunction are surveys of their arguments. -/
theorem StandardOp.goingBy_apply (yes : Bool) (xs : List NodeRef) :
    (goingBy yes).apply eval c xs = do return .bool ((← eval.meets c yes xs) == yes) := by
  cases yes with
  | false =>
    show conjunction eval c xs = _
    induction xs with
    | nil => rfl
    | cons x rest ih =>
      rw [conjunction, Evaluator.meets, bind_assoc]
      refine bind_congr fun v => ?_
      rw [bind_assoc]
      refine bind_congr fun b => ?_
      cases b with
      | false => rfl
      | true => exact ih
  | true =>
    show disjunction eval c xs = _
    induction xs with
    | nil => rfl
    | cons x rest ih =>
      rw [disjunction, Evaluator.meets, bind_assoc]
      refine bind_congr fun v => ?_
      rw [bind_assoc]
      refine bind_congr fun b => ?_
      cases b with
      | false => exact ih
      | true => rfl

end

/-! ### Calls in a run -/

section

variable {first s t : Store} {K : NodeRef → Prop} {c : Context} {name : String}
  {a e o x : NodeRef} {args ns xs : List NodeRef} {yes : Bool}

theorem Store.Calls.orderedArguments (h : first.Calls e name args)
    (hlength : args.length ≤ 10 ^ Text.numberLength) (he : K e) (hst : first.Alongside K s t) :
    orderedArguments e s = .done args (s.setArgOrder e ((Make.numbered 0 args).map Prod.fst)) := by
  have horder : argumentOrder (first.node e).children.keys = _ :=
    argumentOrder_of_perm hlength (h.children.map Prod.fst)
  rw [hst.orderedArguments he, horder]
  exact congrArg (Outcome.done · _) (Node.arguments_of_perm h.children)

variable [host : Host] (hhost : host.Agrees (first.Alongside K))

include hhost

/-- Evaluating a call comes to the same as applying the operator to its arguments, one level further
in. -/
theorem Store.Calls.agrees (h : first.Calls e name args)
    (hlength : args.length ≤ 10 ^ Text.numberLength) (he : K e) {op : StandardOp}
    (hop : c.registry.get? name = some (.standard op)) (n : ℕ) :
    EvalM.Agrees (first.Alongside K) (evaluateWithin (n + 1) c e)
      (op.apply (evaluateWithin n) c.deeper args) := by
  intro s t hst
  have horder := argumentOrder_of_perm hlength (h.children.map Prod.fst)
  rw [evaluateWithin, EvalM.read_bind, hst.node e he]
  simp only [h.kind, h.id, hop]
  rw [EvalM.bind_of_done (h.orderedArguments hlength he hst)]
  exact EvalM.habit_agrees.apply (EvalM.habit_agrees.evaluateWithin hhost n) c.deeper args op _ _
    (hst.setLeft he horder)

/-- So does a negation with negating the value of its argument. -/
theorem Store.Calls.agrees_not (h : first.Calls e "not" [x]) (he : K e)
    (hnot : c.registry.get? "not" = some (.standard .not)) (n : ℕ) :
    EvalM.Agrees (first.Alongside K) (evaluateWithin (n + 1) c e)
      (evaluateWithin n c.deeper x >>= fun v => EvalM.read fun s => .bool (!s.truthy v)) :=
  h.agrees hhost (Nat.one_le_pow _ _ (by decide)) he hnot n

/-- A negated conjunction or disjunction is a survey of the arguments, two levels further in. -/
theorem Store.Calls.agrees_not_junction (he : first.Calls e "not" [a]) (hKe : K e)
    (ha : first.Calls a name xs) (hKa : K a) (hlength : xs.length ≤ 10 ^ Text.numberLength)
    (hnot : c.registry.get? "not" = some (.standard .not))
    (hop : c.registry.get? name = some (.standard (.goingBy yes))) (n : ℕ) :
    EvalM.Agrees (first.Alongside K) (evaluateWithin (n + 2) c e)
      (Evaluator.negated (evaluateWithin n) c.deeper.deeper yes xs) := by
  have hinner := ha.agrees (c := c.deeper) hhost hlength hKa hop n
  rw [StandardOp.goingBy_apply] at hinner
  have hread : ∀ v : Value, EvalM.Agrees (first.Alongside K)
      (EvalM.read fun s => .bool (!s.truthy v)) (EvalM.read fun s => Value.bool (!s.truthy v)) :=
    fun v => EvalM.habit_agrees.read fun _ _ => rfl
  have houter := (he.agrees_not hhost hKe hnot (n + 1)).trans (hinner.bind hread)
  rwa [bind_assoc] at houter

/-- A survey of negations is a survey of what they negate, one level further in and for the other
truth value. -/
theorem Evaluator.meets_agrees
    (hns : List.Forall₂ (fun x n => first.Calls n "not" [x] ∧ K n) xs ns)
    (hnot : c.registry.get? "not" = some (.standard .not)) (n : ℕ) :
    EvalM.Agrees (first.Alongside K) (Evaluator.meets (evaluateWithin (n + 1)) c (!yes) ns)
      (Evaluator.meets (evaluateWithin n) c.deeper yes xs) := by
  induction hns with
  | nil => exact .pure false
  | @cons x e xs ns hx _ ih =>
    -- negating the value of an argument exchanges where the survey stops
    have hvalue : ((evaluateWithin n c.deeper x >>= fun v =>
          EvalM.read fun s => .bool (!s.truthy v)) >>= fun w =>
        EvalM.read (·.truthy w) >>= fun b => if b = !yes then pure true
          else Evaluator.meets (evaluateWithin n) c.deeper yes xs) =
        Evaluator.meets (evaluateWithin n) c.deeper yes (x :: xs) := by
      rw [bind_assoc, meets]
      refine bind_congr fun v => funext fun s => ?_
      have htruthy : s.truthy (.bool (!s.truthy v)) = !s.truthy v := rfl
      rw [EvalM.read_bind, EvalM.read_bind, EvalM.read_bind, htruthy]
      cases s.truthy v <;> cases yes <;> rfl
    rw [← hvalue]
    refine (hx.1.agrees_not hhost hx.2 hnot n).bind fun w => ?_
    refine EvalM.Agrees.bind (EvalM.habit_agrees.read fun _ _ => rfl) fun b => ?_
    split
    exacts [.pure true, ih]

/-- A disjunction or conjunction of negations is the survey too. -/
theorem Store.Calls.agrees_junction_not (ho : first.Calls o name ns) (hKo : K o)
    (hns : List.Forall₂ (fun x n => first.Calls n "not" [x] ∧ K n) xs ns)
    (hlength : xs.length ≤ 10 ^ Text.numberLength)
    (hnot : c.registry.get? "not" = some (.standard .not))
    (hop : c.registry.get? name = some (.standard (.goingBy !yes))) (n : ℕ) :
    EvalM.Agrees (first.Alongside K) (evaluateWithin (n + 2) c o)
      (Evaluator.negated (evaluateWithin n) c.deeper.deeper yes xs) := by
  have houter := ho.agrees hhost (hns.length_eq ▸ hlength) hKo hop (n + 1)
  rw [StandardOp.goingBy_apply] at houter
  refine houter.trans ((Evaluator.meets_agrees (c := c.deeper) hhost hns hnot n).bind fun b => ?_)
  have hbool : (b == !yes) = (b != yes) := by cases b <;> cases yes <;> rfl
  rw [hbool]
  exact .pure _

omit hhost in
theorem evaluate_eq_levels (hdepth : c.depth ≤ 998) (r : NodeRef) : evaluate c r =
    (evaluateWithin ((maxDepth - c.deeper.deeper.depth).toNat + 2) c r).mapFault
      Fault.orTooDeep := by
  have hlevels : (maxDepth - c.depth).toNat = (maxDepth - c.deeper.deeper.depth).toNat + 2 := by
    simp only [Context.deeper, maxDepth]
    omega
  rw [evaluate, hlevels]

omit hhost in
/-- What a node comes to with the levels that are left two levels further out. -/
theorem EvalM.Agrees.negated_evaluate (hdepth : c.depth ≤ 998)
    (h : EvalM.Agrees (first.Alongside K)
      (evaluateWithin ((maxDepth - c.deeper.deeper.depth).toNat + 2) c e)
      (Evaluator.negated (evaluateWithin (maxDepth - c.deeper.deeper.depth).toNat)
        c.deeper.deeper yes xs)) :
    EvalM.Agrees (first.Alongside K) (evaluate c e) (evaluate.negated c.deeper.deeper yes xs) := by
  rw [evaluate_eq_levels hdepth, Evaluator.negated_mapFault fun _ => rfl]
  exact h.mapFault _

end

/-! ### Negations that are made -/

/-- What a call of an operator on arguments holds when it is made. -/
def Node.call (name : String) (args : List NodeRef) : Node :=
  ⟨name, Builtin.op, .op, .none, .none, ∅, ∅, .ofList (Make.numbered 0 args)⟩

/-- The negation of a call of an operator on arguments, and a call of an operator on the negations of
the arguments. -/
def Make.negations (inner outer : String) (xs : List NodeRef) : StoreM (NodeRef × NodeRef) := do
  let a ← op inner xs
  let e ← op "not" [a]
  let ns ← xs.mapM fun x => op "not" [x]
  let o ← op outer ns
  return (e, o)

section

variable {s t : Store} {e o : NodeRef} {name inner outer : String} {args xs : List NodeRef}

/-- Whether a node has come to be there as a call of an operator on arguments. -/
def Store.Made (s t : Store) (e : NodeRef) (name : String) (args : List NodeRef) : Prop :=
  s.Between t (.node e) ∧ t.node e = .call name args

theorem Store.Made.since {u : Store} (h : t.Made u e name args) (hst : s.Extends t) :
    s.Made u e name args :=
  ⟨⟨fun hs => h.1.1 (hst.has hs), h.1.2⟩, h.2⟩

theorem Store.Made.calls (h : s.Made t e name args) (hlength : args.length ≤ 10 ^ Text.numberLength)
    (horder : t.argOrder e = none) : t.Calls e name args :=
  .of_node h.2 (by rw [Entries.toList_ofList (Make.nodup_numbered (by simpa using hlength))]) horder

/-- Whether all that a new node is to hold is there. -/
structure Store.HasContent (s : Store) (c : Content) : Prop where
  value : s.Has c.value
  default : s.Has c.default
  metadata : ∀ r ∈ c.metadata.values, s.Has (.node r)
  constraints : ∀ r ∈ c.constraints.values, s.Has (.node r)
  children : ∀ r ∈ c.children.values, s.Has (.node r)

theorem Store.HasContent.ofValue {v : Value} (hv : s.Has v) : s.HasContent { value := v } :=
  ⟨hv, trivial, nofun, nofun, nofun⟩

theorem Store.HasContent.has_parts {c : Content} (h : s.HasContent c) (id : String) (type : NodeRef)
    (kind : Kind) : ∀ p ∈ (⟨id, type, kind, c.value, c.default, c.metadata, c.constraints,
      c.children⟩ : Node).parts, s.Has p := by
  intro p hp
  rcases Node.mem_parts hp with rfl | rfl | ⟨role, r, hr, rfl⟩
  · exact h.value
  · exact h.default
  · cases role with
    | metadata => exact h.metadata r hr
    | constraints => exact h.constraints r hr
    | children => exact h.children r hr

/-- A node of a built-in type can always be made of what is there. -/
theorem Builds.ofBuiltin (name : String) {type : NodeRef} (hbuiltin : (name, type) ∈ Builtin.all)
    {id : String} {c : Content} (hc : s.HasContent c) :
    Builds s (Make.node id type c) fun t r => s.Between t (.node r) ∧ t.node r =
      ⟨id, type, .ofTypeId name, c.value, c.default, c.metadata, c.constraints, c.children⟩ := by
  intro s₁ h₁ hs₁
  obtain ⟨htype, hid⟩ := hs₁.builtin _ hbuiltin
  obtain ⟨r, s₂, hrun, h₁₂, hs₂, hr⟩ := Builds.node (c := c) (by rw [hid]) htype
    (fun p hp => h₁.has (hc.has_parts id type (.ofTypeId name) p hp)) s₁ .refl hs₁
  exact ⟨r, s₂, hrun, h₁₂, hs₂, fun t ht =>
    ⟨⟨fun h => (hr t ht).1.1 (h₁.has h), (hr t ht).1.2⟩, (hr t ht).2⟩⟩

theorem Builds.op (hargs : ∀ a ∈ args, s.Has (.node a)) :
    Builds s (Make.op name args) fun t e => s.Made t e name args :=
  .ofBuiltin "Op" (by decide)
    ⟨trivial, trivial, nofun, nofun, fun a ha => hargs a (Make.mem_of_mem_numbered ha)⟩

theorem Builds.negations (hxs : ∀ x ∈ xs, s.Has (.node x)) :
    Builds s (Make.negations inner outer xs) fun t p => ∃ a ns, s.Made t a inner xs ∧
      s.Made t p.1 "not" [a] ∧ List.Forall₂ (fun x n => s.Made t n "not" [x]) xs ns ∧
      s.Made t p.2 outer ns := by
  refine .bind (.op hxs) fun a s₁ h₁ ha => ?_
  have hhasa : ∀ x ∈ [a], s₁.Has (.node x) := by simpa using (ha s₁ .refl).1.2
  refine .bind (.op hhasa) fun e s₂ h₂ he => ?_
  have hnot : ∀ x ∈ xs, Builds s₂ (Make.op "not" [x]) fun t n => s₂.Made t n "not" [x] :=
    fun x hx => .op (by simpa using h₂.has (h₁.has (hxs x hx)))
  refine .bind (.mapM hnot) fun ns s₃ h₃ hns => ?_
  have hhasns : ∀ n ∈ ns, s₃.Has (.node n) := by
    intro n hn
    obtain ⟨x, -, hmade⟩ := exists_partner (hns s₃ .refl).flip n hn
    exact hmade.1.2
  refine .bind (.op hhasns) fun o s₄ h₄ ho => .pure fun t ht => ?_
  have h₃t := h₄.trans ht
  have h₂t := h₃.trans h₃t
  have hnew := fun x n (h : s₂.Made t n "not" [x]) => h.since (h₁.trans h₂)
  exact ⟨a, ns, ha t (h₂.trans h₂t), (he t h₂t).since h₁, (hns t h₃t).imp hnew,
    (ho t ht).since ((h₁.trans h₂).trans h₃)⟩

/-- Making a node does nothing but add it. -/
theorem Store.Additive.keeps_made {I : Store → Prop} (h : Additive I) (id : String) (type : NodeRef)
    (content : Content) : Keeps I (Make.node id type content) fun _ => True :=
  .modifyGet fun u hu => ⟨h.node u _ hu, trivial⟩

theorem Make.negations_adds {p : NodeRef × NodeRef} (h : Make.negations inner outer xs s = .ok p t) :
    s.Adds t := by
  have hop : ∀ name args, Keeps s.Adds (Make.op name args) fun _ => True := fun name args =>
    (allAdditive_adds s).keeps_made _ _ _
  have hmake : Keeps s.Adds (Make.negations inner outer xs) fun _ => True :=
    (hop _ _).bind fun _ _ => (hop _ _).bind fun _ _ => (Keeps.mapM fun _ _ => hop _ _).bind
      fun _ _ => (hop _ _).bind fun _ _ => .pure trivial
  exact (hmake.ok (.refl s) h).1

/-- Before anything has been evaluated, nothing is remembered of nodes that have been made. -/
theorem Store.Alongside.of_adds (hst : s.Adds t)
    (horders : ∀ r, ¬ s.Has (.node r) → s.argOrder r = none) :
    t.Alongside (fun r => s.Between t (.node r)) t t where
  same := rfl
  size := rfl
  order _ _ := rfl
  node _ _ := rfl
  right r keys hr hkeys := by
    have hnone : t.argOrder r = none := (hst.order r).trans (horders r hr.1)
    rw [hnone] at hkeys
    exact hkeys.elim nofun nofun

end

/-- Whether two stores differ in nothing but what is remembered of the nodes that a store has and an
earlier one has not. -/
@[reducible] def Store.DifferInNew (s t : Store) : Store → Store → Prop :=
  t.Alongside fun r => s.Between t (.node r)

/-- De Morgan's laws, with all that an evaluation does. For every list of arguments, a negated
conjunction of them and the disjunction of their negations can be made. If the operators of the host
do not go by what is remembered of the nodes that are made so, and leave these nodes, both come to
the same survey, from stores that differ in no more than that, whenever it is: the arguments are
evaluated in turn, two levels further in, up to the first that does not count as true. So they have
the same effects, and suspend at the same points, and in the end there is the same boolean or the
same fault. Negated disjunctions and conjunctions of negations agree in the same way. -/
theorem negations_agree {s : Store} (hs : s.WellFormed)
    (horders : ∀ r, ¬ s.Has (.node r) → s.argOrder r = none) {xs : List NodeRef}
    (hxs : ∀ x ∈ xs, s.Has (.node x)) (hlength : xs.length ≤ 10 ^ Text.numberLength)
    {inner outer : String} {yes : Bool} (hnames : (inner, outer, yes) = ("and", "or", false) ∨
      (inner, outer, yes) = ("or", "and", true)) :
    ∃ e o t, Make.negations inner outer xs s = .ok (e, o) t ∧ s.Adds t ∧
      ∀ [host : Host], host.Agrees (s.DifferInNew t) →
        ∀ c : Context, c.depth ≤ 998 → c.registry.get? "and" = some (.standard .and) →
          c.registry.get? "or" = some (.standard .or) →
          c.registry.get? "not" = some (.standard .not) →
          EvalM.Agrees (s.DifferInNew t) (evaluate c e)
            (evaluate.negated c.deeper.deeper yes xs) ∧
          EvalM.Agrees (s.DifferInNew t) (evaluate c o)
            (evaluate.negated c.deeper.deeper yes xs) ∧
          ((evaluate c e).run t).1 = ((evaluate c o).run t).1 ∧
          s.DifferInNew t ((evaluate c e).run t).2 ((evaluate c o).run t).2 := by
  have hbuilds : Builds s (Make.negations inner outer xs) _ := Builds.negations hxs
  obtain ⟨⟨e, o⟩, t, hrun, -, -, hmade⟩ := hbuilds s .refl hs
  obtain ⟨a, ns, ha, he, hns, ho⟩ := hmade t .refl
  have hst := Make.negations_adds hrun
  have hcalls : ∀ {q name args}, s.Made t q name args → args.length ≤ 10 ^ Text.numberLength →
      t.Calls q name args := fun hq hargs =>
    hq.calls hargs ((hst.order _).trans (horders _ hq.1.1))
  have hone : 1 ≤ 10 ^ Text.numberLength := Nat.one_le_pow _ _ (by decide)
  refine ⟨e, o, t, hrun, hst, fun hhost c hdepth hand hor hnot => ?_⟩
  have hops : c.registry.get? inner = some (.standard (.goingBy yes)) ∧
      c.registry.get? outer = some (.standard (.goingBy !yes)) := by
    rcases hnames with h | h <;> cases h
    · exact ⟨hand, hor⟩
    · exact ⟨hor, hand⟩
  have hinner := ((hcalls he hone).agrees_not_junction hhost he.1 (hcalls ha hlength) ha.1 hlength
    hnot hops.1 _).negated_evaluate hdepth
  have houter := ((hcalls ho (hns.length_eq ▸ hlength)).agrees_junction_not hhost ho.1
    (hns.imp fun _ _ hn => ⟨hcalls hn hone, hn.1⟩) hlength hnot hops.2 _).negated_evaluate hdepth
  exact ⟨hinner, houter, (hinner.trans houter.symm t t (.of_adds hst horders)).finish⟩

/-- A host whose operators hand on the value of their first argument after they have noted it down in
a new list, and fail without arguments. -/
@[reducible] def Host.noting : Host where
  call name eval c args := do
    match args with
    | [] => .fail (.unknownOperator name)
    | r :: _ =>
      let v ← eval c r
      let _ ← EvalM.update (·.newList [v])
      return v

theorem Host.noting_agrees {first : Store} {K : NodeRef → Prop} :
    Host.noting.Agrees (first.Alongside K) := by
  intro name eval heval c args
  cases args with
  | nil => exact EvalM.habit_agrees.fail nofun
  | cons r rest =>
    exact (heval c r).bind fun v =>
      (EvalM.habit_agrees.update (fun _ => rfl) fun _ _ => rfl).bind fun _ => .pure v

/-- A number that counts as false and one that counts as true, each followed by a call of such an
operator on it. -/
def Store.asked : Store :=
  let s := (initial.allocNode { Builtin.node "lit" Builtin.lit .lit with value := .int 0 }).2
  let s := (s.allocNode (.call "note" [⟨8⟩])).2
  let s := (s.allocNode { Builtin.node "lit" Builtin.lit .lit with value := .int 1 }).2
  (s.allocNode (.call "note" [⟨10⟩])).2

theorem Store.asked_wellFormed : asked.WellFormed :=
  initial_wellFormed.allocNode (by decide) rfl (by decide)
    |>.allocNode (by decide) rfl (by decide)
    |>.allocNode (by decide) rfl (by decide)
    |>.allocNode (by decide) rfl (by decide)

/-- The context of an evaluation with that operator. -/
def notingContext : Context where
  current := ⟨9⟩
  root := ⟨9⟩
  registry := Registry.standard.insert "note" (.host "note")
  bindings := none
  depth := 0
  lookup := none

/-- The store in which the two negations of three calls have been made. -/
def Store.doubting : Store :=
  [("or", [⟨9⟩, ⟨11⟩, ⟨9⟩]), ("not", [⟨12⟩]), ("not", [⟨9⟩]), ("not", [⟨11⟩]), ("not", [⟨9⟩]),
    ("and", [⟨14⟩, ⟨15⟩, ⟨16⟩])].foldl (fun s p => (s.allocNode (.call p.1 p.2)).2) asked

/-- The second call settles both, so two values have been noted down. -/
theorem doubting_agrees :
    Make.negations "or" "and" [⟨9⟩, ⟨11⟩, ⟨9⟩] asked = .ok (⟨13⟩, ⟨17⟩) doubting ∧
    ∀ r, r = ⟨13⟩ ∨ r = ⟨17⟩ →
      ((@evaluate Host.noting notingContext r).run doubting).1 = .ok (.bool false) ∧
      ((@evaluate Host.noting notingContext r).run doubting).2.lists = #[[.int 0], [.int 1]] := by
  have horders : ∀ r, ¬ asked.Has (.node r) → asked.argOrder r = none := fun r hr =>
    dif_neg (show ¬ r.index < asked.argOrders.size from hr)
  have hasked : ∀ x ∈ [⟨9⟩, ⟨11⟩, ⟨9⟩], asked.Has (.node x) := by decide
  have hthree : 3 ≤ 10 ^ Text.numberLength :=
    Nat.le_trans (by decide : 3 ≤ 10 ^ 1) (Nat.pow_le_pow_right (by decide) (by decide))
  have hmade : Make.negations "or" "and" [⟨9⟩, ⟨11⟩, ⟨9⟩] asked = .ok (⟨13⟩, ⟨17⟩) doubting := rfl
  obtain ⟨e, o, t, hrun, -, hagree⟩ :=
    negations_agree asked_wellFormed horders hasked hthree (.inr rfl)
  obtain ⟨⟨rfl, rfl⟩, rfl⟩ : (e = ⟨13⟩ ∧ o = ⟨17⟩) ∧ t = doubting := by
    simpa using hrun.symm.trans hmade
  obtain ⟨-, -, hresult, hstore⟩ :=
    @hagree Host.noting Host.noting_agrees notingContext (by decide) rfl rfl rfl
  have hfalse : ((@evaluate Host.noting notingContext ⟨13⟩).run doubting).1 =
      .ok (.bool false) := by cbv
  have hnoted : ((@evaluate Host.noting notingContext ⟨13⟩).run doubting).2.lists =
      #[[.int 0], [.int 1]] := by cbv
  refine ⟨hmade, fun r hr => ?_⟩
  rcases hr with rfl | rfl
  · exact ⟨hfalse, hnoted⟩
  · rw [← hresult, hstore.same]
    exact ⟨hfalse, hnoted⟩

end LiveTree
