import LiveTree.Proofs.Eval.Negation
import LiveTree.Proofs.Tree.References

/-! Arithmetic expressions: integer literals and sums, differences and products of two. Evaluating
one takes as many levels as it is high, not one more, and comes to its value. With fewer levels it
fails, whatever part of it runs out of them. Besides, argument orders come to be remembered, those
that the calls have anyway. -/

namespace LiveTree

/-- The operations on two integers. -/
inductive ArithmeticOp where
  | add
  | sub
  | mul
  deriving DecidableEq, Inhabited, Repr

namespace ArithmeticOp

/-- The name of the operator. -/
def name : ArithmeticOp → String
  | add => "add"
  | sub => "sub"
  | mul => "mul"

/-- The operator of the standard library. -/
def standard : ArithmeticOp → StandardOp
  | add => .add
  | sub => .sub
  | mul => .mul

/-- The operation itself. -/
def onInts : ArithmeticOp → ℤ → ℤ → ℤ
  | add => (· + ·)
  | sub => (· - ·)
  | mul => (· * ·)

end ArithmeticOp

/-- An arithmetic expression. -/
inductive Arithmetic where
  | literal (i : ℤ)
  | call (op : ArithmeticOp) (a b : Arithmetic)
  deriving DecidableEq, Inhabited, Repr

namespace Arithmetic

/-- The value of an expression. -/
def value : Arithmetic → ℤ
  | literal i => i
  | call op a b => op.onInts a.value b.value

/-- How high an expression is. -/
def height : Arithmetic → ℕ
  | literal _ => 1
  | call _ a b => max a.height b.height + 1

/-- Makes the nodes of an expression. -/
def make : Arithmetic → StoreM NodeRef
  | literal i => Make.lit (.int i)
  | call op a b => do
    let x ← a.make
    let y ← b.make
    Make.op op.name [x, y]

end Arithmetic

theorem pair_le (x y : NodeRef) : [x, y].length ≤ 10 ^ Text.numberLength :=
  Nat.le_trans (show 2 ≤ 10 by decide) (Nat.le_self_pow (by decide) 10)

/-- Whether a registry has the operations on two integers under their names. -/
def Registry.HasArithmetic (g : Registry) : Prop :=
  ∀ op : ArithmeticOp, g.get? op.name = some (.standard op.standard)

namespace Store

variable {s t u : Store} {r e : NodeRef} {a : Arithmetic}

/-- Whether a node is an arithmetic expression. It may have been evaluated before, as long as the
order that is remembered hands over both arguments. Parts may be shared. -/
def Expresses (s : Store) : Arithmetic → NodeRef → Prop
  | .literal i, r => (s.node r).kind = .lit ∧ (s.node r).value = .int i
  | .call op a b, r => (s.node r).kind = .op ∧ (s.node r).id = op.name ∧ ∃ x y,
      (s.node r).children.toList.Perm (Make.numbered 0 [x, y]) ∧
      (∀ keys, s.argOrder r = some keys → (s.node r).arguments keys = [x, y]) ∧
      s.Expresses a x ∧ s.Expresses b y

/-- Whether one store is another in which more argument orders have come to be remembered. -/
structure Remembers (s t : Store) : Prop where
  later : s.Later t
  same : { t with argOrders := s.argOrders } = s

namespace Remembers

theorem refl (s : Store) : s.Remembers s := ⟨.refl s, rfl⟩

theorem trans (h : s.Remembers t) (h' : t.Remembers u) : s.Remembers u := by
  refine ⟨h.later.trans h'.later, ?_⟩
  rw [← h.same, ← h'.same]

end Remembers

section Arguments

variable {args : List NodeRef} (hlength : args.length ≤ 10 ^ Text.numberLength)
  (hchildren : (s.node r).children.toList.Perm (Make.numbered 0 args))
  (hkept : ∀ keys, s.argOrder r = some keys → (s.node r).arguments keys = args)

include hlength hchildren hkept

/-- An order that comes to be remembered hands over all arguments as well. -/
theorem Later.arguments_eq (hst : s.Later t) (hr : s.Has (.node r)) {keys : List String}
    (hkeys : t.argOrder r = some keys) : (s.node r).arguments keys = args := by
  rcases hst.order r hr with e | ⟨-, fresh, hremembered, hfresh⟩
  · exact hkept keys (e ▸ hkeys)
  · obtain rfl := Option.some.inj (hkeys.symm.trans hremembered)
    have horder := argumentOrder_of_perm hlength (hchildren.map Prod.fst)
    obtain rfl := Except.ok.inj (hfresh.symm.trans horder)
    exact Node.arguments_of_perm hchildren

/-- A call hands over its arguments, and only remembers their order. -/
theorem orderedArguments_eq : ∃ t, s.Remembers t ∧ orderedArguments r s = .done args t := by
  have horder := argumentOrder_of_perm hlength (hchildren.map Prod.fst)
  rcases orderedArguments_cases s r with ⟨keys, hkeys, hdone⟩ | ⟨keys, hnone, hkeys, hdone⟩ |
    ⟨e, -, hfault, -⟩
  · exact ⟨s, .refl s, by rw [hdone, hkept keys hkeys]⟩
  · refine ⟨s.setArgOrder r keys, ⟨later_setArgOrder hnone hkeys, rfl⟩, ?_⟩
    obtain rfl := Except.ok.inj (hkeys.symm.trans horder)
    rw [hdone, Node.arguments_of_perm hchildren]
  · cases hfault.symm.trans horder

end Arguments

theorem Expresses.later (h : s.Expresses a r) (hst : s.Later t) : t.Expresses a r := by
  induction a generalizing r with
  | literal i =>
    have hr : s.Has (.node r) := by
      by_contra hnot
      have hvalue := h.2
      rw [s.node_of_not_has hnot] at hvalue
      cases hvalue
    rw [Expresses, hst.node hr]
    exact h
  | call op a b iha ihb =>
    obtain ⟨hkind, hid, x, y, hchildren, hkept, hx, hy⟩ := h
    have hr : s.Has (.node r) := by
      by_contra hnot
      rw [s.node_of_not_has hnot] at hkind
      cases hkind
    rw [Expresses, hst.node hr]
    exact ⟨hkind, hid, x, y, hchildren, fun _ => hst.arguments_eq (pair_le x y) hchildren hkept hr,
      iha hx, ihb hy⟩

end Store

/-! ### Evaluation -/

theorem Arithmetic.height_pos (a : Arithmetic) : 0 < a.height := by
  cases a with
  | literal i => exact Nat.one_pos
  | call op a b => exact Nat.succ_pos _

section

variable {s t u : Store} {eval : Evaluator} {c : Context} {x y e r : NodeRef} {a : Arithmetic}

namespace ArithmeticOp

variable {i j : ℤ} {fault : Fault} {rest : Aftermath}

/-- An operation on two integers evaluates the first, then the second, and does what it stands for.
-/
theorem apply_eq (op : ArithmeticOp) : op.standard.apply eval c [x, y] =
    eval c x >>= fun v => eval c y >>= fun w =>
      EvalM.attempt fun s => match op with
        | add => s.add v.orZero w.orZero
        | sub => s.subtract v.orZero w.orZero
        | mul => s.multiply v.orZero w.orZero := by
  cases op <;> rfl

theorem apply_done (op : ArithmeticOp) (hx : eval c x s = .done (.int i) t)
    (hy : eval c y t = .done (.int j) u) :
    op.standard.apply eval c [x, y] s = .done (.int (op.onInts i j)) u := by
  rw [apply_eq, EvalM.bind_of_done hx, EvalM.bind_of_done hy]
  cases op <;> rfl

theorem apply_failed_left (op : ArithmeticOp) (hx : eval c x s = .failed fault rest) :
    op.standard.apply eval c [x, y] s = .failed fault rest := by
  rw [apply_eq, EvalM.bind_of_failed hx]

theorem apply_failed_right (op : ArithmeticOp) (hx : eval c x s = .done (.int i) t)
    (hy : eval c y t = .failed fault rest) :
    op.standard.apply eval c [x, y] s = .failed fault rest := by
  rw [apply_eq, EvalM.bind_of_done hx, EvalM.bind_of_failed hy]

end ArithmeticOp

/-- An evaluation with some levels comes to the value of an expression that is no higher, and fails
for want of levels otherwise. -/
theorem evaluateWithin_expresses [Host] (hc : c.registry.HasArithmetic) (h : s.Expresses a r)
    (n : ℕ) : ∃ t, s.Remembers t ∧ evaluateWithin n c r s =
      if a.height ≤ n then .done (.int a.value) t else .failed .tooDeep (.ended t) := by
  induction n generalizing a c r s with
  | zero => exact ⟨s, .refl s, (if_neg (Nat.not_le.mpr a.height_pos)).symm⟩
  | succ n ih =>
    cases a with
    | literal i =>
      obtain ⟨hkind, hvalue⟩ := h
      have hheight : (Arithmetic.literal i).height ≤ n + 1 := Nat.succ_pos n
      refine ⟨s, .refl s, ?_⟩
      rw [if_pos hheight, evaluateWithin, EvalM.read_bind]
      simp only [hkind, hvalue]
      rfl
    | call op a b =>
      obtain ⟨hkind, hid, x, y, hchildren, hkept, hx, hy⟩ := h
      obtain ⟨t, hst, hargs⟩ := Store.orderedArguments_eq (pair_le x y) hchildren hkept
      obtain ⟨u, htu, hxu⟩ := ih (c := c.deeper) hc (hx.later hst.later)
      obtain ⟨v, huv, hyv⟩ := ih (c := c.deeper) hc ((hy.later hst.later).later htu.later)
      have hcall : evaluateWithin (n + 1) c r s =
          op.standard.apply (evaluateWithin n) c.deeper [x, y] t := by
        rw [evaluateWithin, EvalM.read_bind]
        simp only [hkind, hid, hc op]
        exact EvalM.bind_of_done hargs _
      have hheight : (Arithmetic.call op a b).height ≤ n + 1 ↔ a.height ≤ n ∧ b.height ≤ n := by
        simp only [Arithmetic.height, Nat.add_le_add_iff_right, Nat.max_le]
      rw [hcall]
      by_cases ha : a.height ≤ n
      · rw [if_pos ha] at hxu
        refine ⟨v, (hst.trans htu).trans huv, ?_⟩
        by_cases hb : b.height ≤ n
        · rw [if_pos (hheight.mpr ⟨ha, hb⟩)]
          exact op.apply_done hxu (hyv.trans (if_pos hb))
        · rw [if_neg fun h => hb (hheight.mp h).2]
          exact op.apply_failed_right hxu (hyv.trans (if_neg hb))
      · rw [if_neg ha] at hxu
        refine ⟨u, hst.trans htu, ?_⟩
        rw [if_neg fun h => ha (hheight.mp h).1]
        exact op.apply_failed_left hxu

/-! ### Expressions that are made -/

theorem Builds.lit {v : Value} (hv : s.Has v) : Builds s (Make.lit v) fun t e =>
    s.Between t (.node e) ∧ (t.node e).kind = .lit ∧ (t.node e).value = v := by
  have hnode : Builds s (Make.lit v) _ := .ofBuiltin "Lit" (by decide) (.ofValue hv)
  exact hnode.mono fun t e _ he => ⟨he.1, by rw [he.2]; rfl, by rw [he.2]⟩

/-- Making an expression builds nodes that are that expression, as long as nothing is remembered of
the new nodes. -/
theorem Builds.arithmetic (a : Arithmetic) : Builds s a.make fun t e => t.Has (.node e) ∧
    ((∀ r, s.Between t (.node r) → t.argOrder r = none) → t.Expresses a e) := by
  induction a generalizing s with
  | literal i =>
    exact (Builds.lit (v := .int i) trivial).mono fun t e _ he => ⟨he.1.2, fun _ => he.2⟩
  | call op a b iha ihb =>
    refine .bind iha fun x s₁ h₁ hx => .bind ihb fun y s₂ h₂ hy => ?_
    have hargs : ∀ z ∈ [x, y], s₂.Has (.node z) := by
      simpa using ⟨(hx s₂ h₂).1, (hy s₂ .refl).1⟩
    refine (Builds.op hargs).mono fun t e h₃ he => ⟨he.1.2, fun hfresh => ?_⟩
    have hsince : ∀ {r}, s₁.Between t (.node r) → s.Between t (.node r) := fun hr =>
      ⟨fun h => hr.1 (h₁.has h), hr.2⟩
    have hcall := he.calls (pair_le x y) (hfresh e ⟨fun h => he.1.1 (h₂.has (h₁.has h)), he.1.2⟩)
    refine ⟨hcall.kind, hcall.id, x, y, hcall.children, fun keys hkeys => ?_,
      (hx t (h₂.trans h₃)).2 hfresh, (hy t h₃).2 fun r hr => hfresh r (hsince hr)⟩
    cases hcall.order.symm.trans hkeys

theorem Arithmetic.make_adds (h : a.make s = .ok e t) : s.Adds t := by
  have hadds := (allAdditive_adds s).toAdditive
  have hmake : ∀ a : Arithmetic, Keeps s.Adds a.make fun _ => True := fun a => by
    induction a with
    | literal i => exact hadds.keeps_made _ _ _
    | call op a b iha ihb => exact iha.bind fun _ _ => ihb.bind fun _ _ => hadds.keeps_made _ _ _
  exact ((hmake a).ok (.refl s) h).1

/-- Every arithmetic expression can be made. Whenever a node is an arithmetic expression, evaluating
it in a context that has the operations comes to its value if it is no higher than there are levels
left, and nests too deep otherwise; nothing is changed but that argument orders are remembered. -/
theorem evaluate_arithmetic [Host] (a : Arithmetic) :
    (∀ s : Store, s.WellFormed → (∀ r, ¬ s.Has (.node r) → s.argOrder r = none) →
      ∃ e t, a.make s = .ok e t ∧ t.Expresses a e) ∧
    ∀ (s : Store) (e : NodeRef) (c : Context), s.Expresses a e → c.registry.HasArithmetic →
      ∃ t, { t with argOrders := s.argOrders } = s ∧ evaluate c e s =
        if c.depth + a.height ≤ maxDepth then .done (.int a.value) t
        else .failed .tooDeep (.ended t) := by
  refine ⟨fun s hs horders => ?_, fun s e c he hc => ?_⟩
  · obtain ⟨e, t, hmake, -, -, he⟩ := Builds.arithmetic a s .refl hs
    have hadds := Arithmetic.make_adds hmake
    refine ⟨e, t, hmake, (he t .refl).2 fun r hr => ?_⟩
    rw [hadds.order, horders r hr.1]
  · obtain ⟨t, hst, hrun⟩ := evaluateWithin_expresses hc he (maxDepth - c.depth).toNat
    have hlevels : a.height ≤ (maxDepth - c.depth).toNat ↔ c.depth + a.height ≤ maxDepth := by
      have hpos := a.height_pos
      omega
    refine ⟨t, hst.same, ?_⟩
    rw [evaluate, EvalM.mapFault, hrun]
    by_cases h : c.depth + a.height ≤ maxDepth
    · rw [if_pos h, if_pos (hlevels.mpr h)]
      rfl
    · rw [if_neg h, if_neg (mt hlevels.mp h)]
      rfl

/-- The product of a sum and a negative number, three levels high. -/
def Arithmetic.scaledSum : Arithmetic :=
  .call .mul (.call .add (.literal 2) (.literal 3)) (.literal (-4))

/-- A context of an evaluation that is nested in so many others. -/
def nestedContext (depth : ℤ) : Context where
  current := Builtin.type
  root := Builtin.type
  registry := Registry.standard
  bindings := none
  depth := depth
  lookup := none

/-- In the last but two of the thousand levels the product comes to its value, one level further in
it does not. -/
theorem scaledSum_evaluates : ∃ e t, Arithmetic.scaledSum.make Store.initial = .ok e t ∧
    t.Expresses Arithmetic.scaledSum e ∧ (nestedContext 997).registry.HasArithmetic ∧
    ((@evaluate Host.none (nestedContext 997) e).run t).1 = .ok (.int (-20)) ∧
    ((@evaluate Host.none (nestedContext 998) e).run t).1 = .error .tooDeep := by
  have horders : ∀ r, ¬ Store.initial.Has (.node r) → Store.initial.argOrder r = none :=
    fun r hr => dif_neg (show ¬ r.index < Store.initial.argOrders.size from hr)
  have hregistry : Registry.standard.HasArithmetic := fun op => by cases op <;> rfl
  obtain ⟨hmake, heval⟩ := @evaluate_arithmetic Host.none Arithmetic.scaledSum
  obtain ⟨e, t, hrun, he⟩ := hmake Store.initial Store.initial_wellFormed horders
  refine ⟨e, t, hrun, he, hregistry, ?_, ?_⟩
  · obtain ⟨u, -, hu⟩ := heval t e (nestedContext 997) he hregistry
    rw [EvalM.run, hu, if_pos (by decide)]
    rfl
  · obtain ⟨u, -, hu⟩ := heval t e (nestedContext 998) he hregistry
    rw [EvalM.run, hu, if_neg (by decide)]
    rfl

end

end LiveTree
