import LiveTree.Build.Rule
import LiveTree.Proofs.Eval.Arithmetic
import LiveTree.Proofs.Runs.Heedless
import LiveTree.Proofs.Tree.Chains

/-! The expressions that ready-made rules are made of: the value of the node that the rule stands
on, bounds, functions of one value, comparisons, and two conditions together. Each has a meaning
for a value, which may be a fault; evaluating one on a node with that value comes to its meaning,
and does nothing else than remember argument orders. -/

namespace LiveTree

/-- The functions of one value in ready-made rules. -/
inductive RuleFunction where
  | isNotNull
  | isNotBlank
  | toText
  | textLength
  deriving DecidableEq, Inhabited, Repr

namespace RuleFunction

/-- The name of the operator. -/
def name : RuleFunction → String
  | isNotNull => "is_not_null"
  | isNotBlank => "is_not_blank"
  | toText => "to_string"
  | textLength => "strlen"

/-- The operator of the standard library. -/
def standard : RuleFunction → StandardOp
  | isNotNull => .isNotNull
  | isNotBlank => .isNotBlank
  | toText => .toText
  | textLength => .textLength

/-- What it makes of a value. -/
def onValue (s : Store) (v : Value) : RuleFunction → Except Fault Value
  | isNotNull => .ok (.bool (!v.isNone))
  | isNotBlank => .ok (.bool (!(Text.strip v.textOrEmpty.toList).isEmpty))
  | toText => Value.str <$> s.shownText v
  | textLength => .ok (.int (v.textOrEmpty.length : Nat))

end RuleFunction

namespace Relation

/-- The name of the operator that asks for a relation. -/
def operatorName : Relation → String
  | lt => "lt"
  | le => "lte"
  | gt => "gt"
  | ge => "gte"

/-- The operator of the standard library. -/
def standard : Relation → StandardOp
  | lt => .lt
  | le => .lte
  | gt => .gt
  | ge => .gte

end Relation

/-- An expression in a ready-made rule. -/
inductive RuleTerm where
  | own
  | bound (v : Value)
  | apply (f : RuleFunction) (a : RuleTerm)
  | compare (rel : Relation) (a b : RuleTerm)
  | both (a b : RuleTerm)
  deriving Inhabited

namespace RuleTerm

/-- How many levels of evaluation an expression takes. -/
def height : RuleTerm → ℕ
  | own => 1
  | bound _ => 1
  | apply _ a => a.height + 1
  | compare _ a b => max a.height b.height + 1
  | both a b => max a.height b.height + 1

/-- The bounds in an expression. -/
def bounds : RuleTerm → List Value
  | own => []
  | bound v => [v]
  | apply _ a => a.bounds
  | compare _ a b => a.bounds ++ b.bounds
  | both a b => a.bounds ++ b.bounds

/-- Makes the nodes of an expression. -/
def make : RuleTerm → StoreM NodeRef
  | own => Make.ownValue
  | bound v => Make.lit v
  | apply f a => do Make.op f.name [← a.make]
  | compare rel a b => do
    let x ← a.make
    let y ← b.make
    Make.op rel.operatorName [x, y]
  | both a b => do
    let x ← a.make
    let y ← b.make
    Make.op "and" [x, y]

/-- What an expression means on a node with a value. The second of two conditions is left alone if
the first does not hold. -/
def meaning (s : Store) (v : Value) : RuleTerm → Except Fault Value
  | own => .ok v
  | bound b => .ok b
  | apply f a => do f.onValue s (← a.meaning s v)
  | compare rel a b => do
    let x ← a.meaning s v
    let y ← b.meaning s v
    return .bool (← lenient (s.order rel x y))
  | both a b => do
    if s.truthy (← a.meaning s v) then return .bool (s.truthy (← b.meaning s v))
    else return .bool false

end RuleTerm

/-- Whether a registry has the standard operators under their names. -/
def Registry.HasStandard (g : Registry) : Prop :=
  ∀ p ∈ StandardOp.table, g.get? p.1 = some (.standard p.2)

namespace Registry.HasStandard

variable {g : Registry}

theorem function (h : g.HasStandard) (f : RuleFunction) :
    g.get? f.name = some (.standard f.standard) := by
  cases f
  exacts [h ("is_not_null", .isNotNull) (by decide), h ("is_not_blank", .isNotBlank) (by decide),
    h ("to_string", .toText) (by decide), h ("strlen", .textLength) (by decide)]

theorem relation (h : g.HasStandard) (rel : Relation) :
    g.get? rel.operatorName = some (.standard rel.standard) := by
  cases rel
  exacts [h ("lt", .lt) (by decide), h ("lte", .lte) (by decide), h ("gt", .gt) (by decide),
    h ("gte", .gte) (by decide)]

end Registry.HasStandard

theorem Registry.standard_hasStandard : standard.HasStandard := by
  intro p hp
  have hnames :
      ((StandardOp.table.map fun p => (p.1, Operator.standard p.2)).map Prod.fst).Nodup := by
    decide
  refine Entries.get?_eq_some_iff.mpr ?_
  show (p.1, _) ∈ (Entries.ofList _).toList
  rw [Entries.toList_ofList hnames]
  exact List.mem_map_of_mem hp

namespace Store

variable {s t : Store} {e r : NodeRef} {name : String} {args : List NodeRef} {v : Value}
  {a : RuleTerm}

/-- Whether a node is a call of an operator on arguments. It may have been evaluated before, as long
as the order that is remembered hands over all arguments. -/
structure CallsOn (s : Store) (name : String) (args : List NodeRef) (r : NodeRef) : Prop where
  has : s.Has (.node r)
  kind : (s.node r).kind = .op
  id : (s.node r).id = name
  children : (s.node r).children.toList.Perm (Make.numbered 0 args)
  kept : ∀ keys, s.argOrder r = some keys → (s.node r).arguments keys = args

namespace CallsOn

variable (h : s.CallsOn name args r) (hlength : args.length ≤ 10 ^ Text.numberLength)

include h hlength

theorem later (hst : s.Later t) : t.CallsOn name args r where
  has := hst.has h.has
  kind := by rw [hst.node h.has, h.kind]
  id := by rw [hst.node h.has, h.id]
  children := by
    rw [hst.node h.has]
    exact h.children
  kept keys hkeys := by
    rw [hst.node h.has]
    exact hst.arguments_eq hlength h.children h.kept h.has hkeys

/-- A call is what its operator makes of the arguments with one level less. -/
theorem evaluateWithin_eq [Host] {c : Context} {op : StandardOp}
    (hop : c.registry.get? name = some (.standard op)) (n : ℕ) : ∃ t, s.Remembers t ∧
      evaluateWithin (n + 1) c r s = op.apply (evaluateWithin n) c.deeper args t := by
  obtain ⟨t, hst, hargs⟩ := orderedArguments_eq hlength h.children h.kept
  refine ⟨t, hst, ?_⟩
  rw [evaluateWithin, EvalM.read_bind]
  simp only [h.kind, h.id, hop]
  exact EvalM.bind_of_done hargs _

end CallsOn

theorem IsRef.later {path : Path} (h : s.IsRef e path) (he : s.Has (.node e)) (hpath : path ≠ [])
    (hst : s.Later t) : t.IsRef e path := by
  obtain ⟨hkind, hvalue⟩ := h
  rw [IsRef, hst.node he]
  refine ⟨hkind, ?_⟩
  -- a cell that is not there reads as empty
  have hne : path.map Value.str ≠ [] := mt List.map_eq_nil_iff.mp hpath
  cases hv : (s.node e).value <;> rw [hv] at hvalue <;> try cases hvalue
  case list l =>
    have hl : s.Has (.list l) := by
      by_contra hnot
      exact hne (Option.some.inj (hvalue.symm.trans (congrArg some (s.list_of_not_has hnot))))
    exact (congrArg some (hst.cells.agree hl)).trans hvalue
  case tuple l =>
    have hl : s.Has (.tuple l) := by
      by_contra hnot
      exact hne (Option.some.inj (hvalue.symm.trans (congrArg some (s.tuple_of_not_has hnot))))
    exact (congrArg some (hst.cells.agree hl)).trans hvalue

/-- Whether a node is an expression in a ready-made rule. Parts may be shared. -/
def Spells (s : Store) : RuleTerm → NodeRef → Prop
  | .own, r => s.Has (.node r) ∧ s.IsRef r ["self", "value"]
  | .bound v, r => s.Has (.node r) ∧ (s.node r).kind = .lit ∧ (s.node r).value = v
  | .apply f a, r => ∃ x, s.CallsOn f.name [x] r ∧ s.Spells a x
  | .compare rel a b, r => ∃ x y, s.CallsOn rel.operatorName [x, y] r ∧ s.Spells a x ∧ s.Spells b y
  | .both a b, r => ∃ x y, s.CallsOn "and" [x, y] r ∧ s.Spells a x ∧ s.Spells b y

theorem single_le (x : NodeRef) : [x].length ≤ 10 ^ Text.numberLength :=
  Nat.le_trans (Nat.le_succ 1) (pair_le x x)

theorem Spells.later (h : s.Spells a r) (hst : s.Later t) : t.Spells a r := by
  induction a generalizing r with
  | own => exact ⟨hst.has h.1, h.2.later h.1 (by simp) hst⟩
  | bound v =>
    rw [Spells, hst.node h.1]
    exact ⟨hst.has h.1, h.2⟩
  | apply f a ih =>
    obtain ⟨x, hcall, hx⟩ := h
    exact ⟨x, hcall.later (single_le x) hst, ih hx⟩
  | compare rel a b iha ihb =>
    obtain ⟨x, y, hcall, hx, hy⟩ := h
    exact ⟨x, y, hcall.later (pair_le x y) hst, iha hx, ihb hy⟩
  | both a b iha ihb =>
    obtain ⟨x, y, hcall, hx, hy⟩ := h
    exact ⟨x, y, hcall.later (pair_le x y) hst, iha hx, ihb hy⟩

/-- Whether a node that is no expression holds a value that is no node. -/
structure Bears (s : Store) (r : NodeRef) (v : Value) : Prop where
  plain : (s.node r).kind.isExpression = false
  value : (s.node r).value = v
  noNode : v.asNode? = none

namespace Remembers

variable (h : s.Remembers t)

include h

theorem node_eq (r : NodeRef) : t.node r = s.node r := by
  rw [← h.same]
  rfl

theorem bears (hr : s.Bears r v) : t.Bears r v := by
  have hnode := h.node_eq r
  exact ⟨hnode ▸ hr.plain, hnode ▸ hr.value, hr.noNode⟩

theorem eq_withOrders : t = s.withOrders t.argOrders := by
  have hsame : ({ t with argOrders := s.argOrders } : Store).withOrders t.argOrders =
      s.withOrders t.argOrders := congrArg (fun u => withOrders u t.argOrders) h.same
  exact hsame

theorem onValue_eq (w : Value) (f : RuleFunction) : f.onValue t w = f.onValue s w := by
  rw [h.eq_withOrders]
  cases f <;> simp only [RuleFunction.onValue, shownText_withOrders]

theorem order_eq (rel : Relation) (x y : Value) : t.order rel x y = s.order rel x y := by
  rw [h.eq_withOrders, order_withOrders]

theorem truthy_eq (w : Value) : t.truthy w = s.truthy w := by
  rw [h.eq_withOrders]
  cases w <;> rfl

/-- What is remembered makes no difference to what an expression means. -/
theorem meaning_eq (a : RuleTerm) : a.meaning t v = a.meaning s v := by
  induction a with
  | own => rfl
  | bound v => rfl
  | apply f a ih => simp only [RuleTerm.meaning, ih, h.onValue_eq]
  | compare rel a b iha ihb => simp only [RuleTerm.meaning, iha, ihb, h.order_eq]
  | both a b iha ihb => simp only [RuleTerm.meaning, iha, ihb, h.truthy_eq]

end Remembers

end Store

/-! ### Evaluation -/

theorem RuleTerm.height_pos (a : RuleTerm) : 0 < a.height := by
  cases a <;> simp [height]

/-- Whether a computation on a store comes to a result and only remembers argument orders. -/
def EvalM.ComesTo {α : Type} (m : EvalM α) (s : Store) (found : Except Fault α) : Prop :=
  ∃ t, s.Remembers t ∧ m s = .ofExcept t found

section

variable {α β : Type} {s t : Store} {eval : Evaluator} {c : Context} {x y r : NodeRef} {v : Value}
  {a : RuleTerm}

namespace EvalM.ComesTo

variable {m : EvalM α} {found : Except Fault α}

theorem pure (a : α) : ComesTo (Pure.pure a) s (.ok a) := ⟨s, .refl s, rfl⟩

theorem check (f : Store → Except Fault α) : (EvalM.check f).ComesTo s (f s) := ⟨s, .refl s, rfl⟩

theorem bind {k : α → EvalM β} {k' : α → Except Fault β} (h : m.ComesTo s found)
    (hk : ∀ a t, s.Remembers t → (k a).ComesTo t (k' a)) : (m >>= k).ComesTo s (found >>= k') := by
  obtain ⟨t, hst, hm⟩ := h
  cases found with
  | ok a =>
    obtain ⟨u, htu, hrest⟩ := hk a t hst
    exact ⟨u, hst.trans htu, (EvalM.bind_of_done hm k).trans hrest⟩
  | error e => exact ⟨t, hst, EvalM.bind_of_failed hm k⟩

/-- What is the same as a computation after argument orders have been remembered. -/
theorem of_eq {m' : EvalM α} (hst : s.Remembers t) (hm : m s = m' t) (h : m'.ComesTo t found) :
    m.ComesTo s found :=
  have ⟨u, htu, hrun⟩ := h
  ⟨u, hst.trans htu, hm.trans hrun⟩

end EvalM.ComesTo

theorem RuleFunction.apply_eq (f : RuleFunction) : f.standard.apply eval c [x] =
    eval c x >>= fun v => EvalM.check fun s => f.onValue s v := by
  cases f <;> rfl

theorem Relation.apply_eq (rel : Relation) : rel.standard.apply eval c [x, y] =
    eval c x >>= fun v => eval c y >>= fun w =>
      (EvalM.check fun s => lenient (s.order rel v w)) >>= fun b => pure (.bool b) := by
  cases rel <;> rfl

/-- The value of the node that `self` means takes one level. -/
theorem evaluateWithin_own [Host] (hr : s.IsRef r ["self", "value"]) (hv : s.Bears c.current v)
    (n : ℕ) : evaluateWithin (n + 1) c r s = .done v s := by
  rw [evaluateWithin, EvalM.read_bind, hr.1]
  refine (resolvePath_self hr.2).trans (walk_value.trans ?_)
  rw [ownValue, EvalM.read_bind]
  have hvalue : (s.node c.deeper.current).value = v := hv.value
  have hplain : (s.node c.deeper.current).kind.isExpression = false := hv.plain
  have hnoNode := hv.noNode
  rw [hvalue, hplain]
  cases v <;> first | rfl | cases hnoNode

/-- A literal takes one level. -/
theorem evaluateWithin_literal [Host] (h : s.Spells (.bound v) r) (n : ℕ) :
    evaluateWithin (n + 1) c r s = .done v s := by
  obtain ⟨-, hkind, hvalue⟩ := h
  rw [evaluateWithin, EvalM.read_bind]
  simp only [hkind, hvalue]
  rfl

/-- With enough levels, an expression comes to what it means for the value of the node that `self`
means. -/
theorem evaluateWithin_spells [Host] (hc : c.registry.HasStandard) (hv : s.Bears c.current v)
    (h : s.Spells a r) {n : ℕ} (hn : a.height ≤ n) :
    (evaluateWithin n c r).ComesTo s (a.meaning s v) := by
  induction n generalizing a c r s with
  | zero => exact absurd a.height_pos (Nat.not_lt.mpr hn)
  | succ n ih =>
    -- parts are evaluated one level further in, when more orders may be remembered
    have part : ∀ {b : RuleTerm} {y : NodeRef}, s.Spells b y → b.height ≤ n → ∀ {t},
        s.Remembers t → (evaluateWithin n c.deeper y).ComesTo t (b.meaning s v) := by
      intro b y hy hb t hst
      rw [← hst.meaning_eq]
      exact ih hc (hst.bears hv) (hy.later hst.later) hb
    cases a with
    | own => exact ⟨s, .refl s, evaluateWithin_own h.2 hv n⟩
    | bound w => exact ⟨s, .refl s, evaluateWithin_literal h n⟩
    | apply f a =>
      obtain ⟨x, hcall, hx⟩ := h
      obtain ⟨t, hst, hrun⟩ := hcall.evaluateWithin_eq (Store.single_le x) (hc.function f) n
      refine .of_eq hst hrun ?_
      rw [f.apply_eq]
      refine (part hx (Nat.le_of_succ_le_succ hn) hst).bind fun w u htu => ?_
      rw [← (hst.trans htu).onValue_eq]
      exact .check _
    | compare rel a b =>
      obtain ⟨x, y, hcall, hx, hy⟩ := h
      obtain ⟨ha, hb⟩ := Nat.max_le.mp (Nat.le_of_succ_le_succ hn)
      obtain ⟨t, hst, hrun⟩ := hcall.evaluateWithin_eq (pair_le x y) (hc.relation rel) n
      refine .of_eq hst hrun ?_
      rw [rel.apply_eq]
      refine (part hx ha hst).bind fun v₁ u htu => ?_
      refine (part hy hb (hst.trans htu)).bind fun v₂ z huz => ?_
      rw [← ((hst.trans htu).trans huz).order_eq]
      exact (EvalM.ComesTo.check _).bind fun found _ _ => .pure (Value.bool found)
    | both a b =>
      obtain ⟨x, y, hcall, hx, hy⟩ := h
      obtain ⟨ha, hb⟩ := Nat.max_le.mp (Nat.le_of_succ_le_succ hn)
      obtain ⟨t, hst, hrun⟩ :=
        hcall.evaluateWithin_eq (pair_le x y) (hc ("and", .and) (by decide)) n
      refine .of_eq hst hrun ?_
      refine (part hx ha hst).bind fun v₁ u htu => ?_
      have hsu := hst.trans htu
      show EvalM.ComesTo (if u.truthy v₁ then StandardOp.conjunction _ _ [y] else pure _) u _
      rw [hsu.truthy_eq]
      split
      · refine (part hy hb hsu).bind fun v₂ z huz => ?_
        show EvalM.ComesTo (if z.truthy v₂ then pure _ else pure _) z _
        rw [(hsu.trans huz).truthy_eq]
        cases s.truthy v₂ <;> exact .pure _
      · exact .pure _

end

end LiveTree
