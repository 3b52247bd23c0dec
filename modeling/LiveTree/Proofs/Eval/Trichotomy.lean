import LiveTree.Proofs.Eval.Ranking
import LiveTree.Proofs.Reads.ReadyRules

/-! Comparisons together. Whatever two values are given as literals, the six comparisons come to
truth values that fit together: each is its own opposite the other way round, of "less", "equal"
and "greater" at most one holds, and exactly one where both are numbers or both are texts. -/

namespace LiveTree

/-! ### Verdicts -/

/-- The six comparisons of the standard library. -/
inductive Comparison where
  | eq
  | neq
  | order (rel : Relation)
  deriving DecidableEq, Inhabited, Repr

/-- Whether two values are both numbers with a position, or both texts. -/
inductive Value.SameScale : Value → Value → Prop
  | numbers {v w : Value} (hv : v.scalar?.isSome = true) (hw : w.scalar?.isSome = true)
    (hv' : ¬ v.IsNaN) (hw' : ¬ w.IsNaN) : SameScale v w
  | texts (x y : String) : SameScale (.str x) (.str y)

theorem Value.position?_isSome_of_scalar? {v : Value} {x : Number.Scalar} (hv : v.scalar? = some x)
    (hnan : ¬ v.IsNaN) : x.position?.isSome = true := by
  cases v <;> cases hv
  case bool b => rfl
  case int i => rfl
  case float y =>
    obtain ⟨p, hp⟩ := position?_isSome fun h => hnan ⟨y, rfl, h⟩
    exact Option.isSome_iff_exists.mpr ⟨p, hp⟩

namespace Comparison

variable {s t : Store} {v w : Value} {op : Comparison} {rel : Relation}

/-- What a comparison finds out about two values. -/
def onValues (s : Store) (v w : Value) : Comparison → Except Fault Bool
  | eq => s.equal v w
  | neq => (!·) <$> s.equal v w
  | order rel => s.order rel v w

/-- What a comparison comes to. -/
def verdict (s : Store) (v w : Value) : Comparison → Bool
  | eq => decide (s.equal v w = .ok true)
  | neq => !decide (s.equal v w = .ok true)
  | order rel => (s.rankTo s.depthBound v w).any rel.admits

/-- Two values are compared alike in every later store. -/
theorem onValues_extends (hs : s.WellFormed) (hst : s.Extends t) (hv : s.Comparand v)
    (hw : s.Comparand w) : lenient (op.onValues t v w) = .ok (op.verdict s v w) := by
  have hend := hv.endsWithin hs
  have hequal : t.equal v w = .ok (decide (s.equal v w = .ok true)) := by
    obtain ⟨found, hfound⟩ := Store.equalTo_returns hend w
    have hsame : t.equal v w = s.equal v w :=
      Store.equalTo_extends hs hst hv.has hw.has hend (Nat.succ_le_succ hst.outlives.size_le)
    rw [hsame, show s.equal v w = .ok found from hfound]
    cases found <;> rfl
  cases op with
  | eq => rw [onValues, hequal]; rfl
  | neq => rw [onValues, hequal]; rfl
  | order rel =>
    have hsame : t.order rel v w = s.order rel v w :=
      Store.orderTo_extends hs hst hv.has hw.has hend (Nat.succ_le_succ hst.outlives.size_le)
    rw [onValues, hsame]
    exact Store.orderTo_eq hend w

theorem verdict_swap (hs : s.WellFormed) (hv : s.Comparand v) (hw : s.Comparand w)
    (rel : Relation) : verdict s v w (order rel) = verdict s w v (order rel.swap) := by
  rw [verdict, verdict, Store.rankTo_swap (hv.endsWithin hs) (hw.endsWithin hs),
    rel.any_admits_swap]

/-- What is equal is neither less nor greater. -/
theorem verdict_of_equal (hs : s.WellFormed) (hv : s.Comparand v) (h : verdict s v w eq = true) :
    verdict s v w (order .lt) = false ∧ verdict s v w (order .gt) = false := by
  have hequal : s.equal v w = .ok true := of_decide_eq_true h
  rw [verdict, verdict]
  cases ho : s.rankTo s.depthBound v w with
  | none => exact ⟨rfl, rfl⟩
  | some o =>
    obtain rfl := Store.rankTo_of_equal (hv.endsWithin hs) hequal ho
    exact ⟨rfl, rfl⟩

theorem not_less_and_greater :
    ¬ (verdict s v w (order .lt) = true ∧ verdict s v w (order .gt) = true) := by
  rw [verdict, verdict]
  rcases s.rankTo s.depthBound v w with _ | o
  · exact fun h => nomatch h.1
  · cases o <;> simp [Relation.admits, Relation.holds, Ordering.isLT, Ordering.isGT]

/-- Of numbers, and of texts, exactly one of the three holds. -/
theorem verdict_exclusive (h : v.SameScale w) :
    Exclusive (verdict s v w (order .lt)) (verdict s v w eq) (verdict s v w (order .gt)) ∧
      verdict s v w (order .le) = (verdict s v w (order .lt) || verdict s v w eq) := by
  obtain ⟨below, equal, above, hexclusive, hequal, hrank⟩ : ∃ below equal above,
      Exclusive below equal above ∧ s.equal v w = .ok equal ∧
        s.rankTo s.depthBound v w = some (standing below equal) := by
    cases h with
    | texts x y =>
      exact ⟨_, _, _, .texts x y, rfl, rfl⟩
    | numbers hv hw hv' hw' =>
      obtain ⟨x, hx⟩ := Option.isSome_iff_exists.mp hv
      obtain ⟨y, hy⟩ := Option.isSome_iff_exists.mp hw
      have hpx := Value.position?_isSome_of_scalar? hx hv'
      have hpy := Value.position?_isSome_of_scalar? hy hw'
      have hequal : s.equal v w = .ok (x.equal y) := by
        cases v <;> cases hx <;> cases w <;> cases hy <;> rfl
      have hrank : s.rankTo s.depthBound v w = x.rank y := by
        cases v <;> cases hx <;> cases w <;> cases hy <;> rfl
      refine ⟨_, _, _, Number.Scalar.exclusive hpx hpy, hequal, ?_⟩
      rw [hrank, Number.Scalar.rank, hpx, hpy]
      rfl
  have horder : ∀ rel, verdict s v w (order rel) = rel.holds below equal above := fun rel => by
    rw [verdict, hrank, rel.holds_eq hexclusive]
    rfl
  have heq : verdict s v w eq = equal := by
    rw [verdict, hequal]
    cases equal <;> rfl
  rw [horder, horder, horder, heq]
  exact ⟨hexclusive, rfl⟩

end Comparison

/-! ### Calls -/

namespace Comparison

/-- The name of the operator. -/
def name : Comparison → String
  | eq => "eq"
  | neq => "neq"
  | order rel => rel.operatorName

/-- The operator of the standard library. -/
def standard : Comparison → StandardOp
  | eq => .eq
  | neq => .neq
  | order rel => rel.standard

/-- Makes the nodes of a comparison of two literals. -/
def make (op : Comparison) (v w : Value) : StoreM NodeRef := do
  let x ← Make.lit v
  let y ← Make.lit w
  Make.op op.name [x, y]

end Comparison

theorem Registry.HasStandard.comparison {g : Registry} (h : g.HasStandard) (op : Comparison) :
    g.get? op.name = some (.standard op.standard) := by
  cases op
  exacts [h ("eq", .eq) (by decide), h ("neq", .neq) (by decide), h.relation _]

theorem Comparison.apply_eq {eval : Evaluator} {c : Context} {x y : NodeRef} (op : Comparison) :
    op.standard.apply eval c [x, y] = eval c x >>= fun v => eval c y >>= fun w =>
      (EvalM.check fun s => lenient (op.onValues s v w)) >>= fun b => pure (.bool b) := by
  cases op with
  | order rel => exact rel.apply_eq
  | _ => rfl

theorem Store.Remembers.onValues_eq {s t : Store} (h : s.Remembers t) (op : Comparison)
    (v w : Value) : op.onValues t v w = op.onValues s v w := by
  rw [h.eq_withOrders]
  cases op <;> simp only [Comparison.onValues, equal_withOrders, order_withOrders]

/-- Whether a node is a comparison of two literals. It may have been evaluated before. -/
def Store.ComparesLiterals (s : Store) (op : Comparison) (v w : Value) (e : NodeRef) : Prop :=
  ∃ x y, s.CallsOn op.name [x, y] e ∧ s.Spells (.bound v) x ∧ s.Spells (.bound w) y

section

variable {s t : Store} {c : Context} {op : Comparison} {v w : Value} {e : NodeRef} {b : Bool}

/-- A comparison of two literals comes to what it finds out about them. -/
theorem evaluate_compares [Host] (hc : c.registry.HasStandard) (hdepth : c.depth + 2 ≤ maxDepth)
    (h : s.ComparesLiterals op v w e) (hfound : lenient (op.onValues s v w) = .ok b) :
    (evaluate c e).ComesTo s (.ok (.bool b)) := by
  obtain ⟨x, y, hcall, hx, hy⟩ := h
  obtain ⟨n, hn⟩ : ∃ n, (maxDepth - c.depth).toNat = n + 2 :=
    ⟨(maxDepth - c.depth).toNat - 2, by omega⟩
  obtain ⟨t, hst, hrun⟩ := hcall.evaluateWithin_eq (pair_le x y) (hc.comparison op) (n + 1)
  have hvalues : (op.standard.apply (evaluateWithin (n + 1)) c.deeper [x, y]) t =
      .done (.bool b) t := by
    rw [op.apply_eq]
    refine (EvalM.bind_of_done (evaluateWithin_literal (hx.later hst.later) n) _).trans ?_
    refine (EvalM.bind_of_done (evaluateWithin_literal (hy.later hst.later) n) _).trans ?_
    have hcheck : (EvalM.check fun s => lenient (op.onValues s v w)) t = .done b t := by
      rw [EvalM.check, hst.onValues_eq, hfound]
      rfl
    exact EvalM.bind_of_done hcheck _
  refine ⟨t, hst, ?_⟩
  rw [evaluate, EvalM.mapFault, hn, hrun, hvalues]
  rfl

/-- Comparing two literals can be expressed. -/
theorem Comparison.make_compares (op : Comparison) (hs : s.WellFormed)
    (horders : ∀ r, ¬ s.Has (.node r) → s.argOrder r = none) (hv : s.Has v) (hw : s.Has w) :
    ∃ e t, op.make v w s = .ok e t ∧ s.Extends t ∧ t.ComparesLiterals op v w e := by
  have hbuilds : Builds s (op.make v w) fun t e => t.Has (.node e) ∧
      (s.Untried t → t.ComparesLiterals op v w e) :=
    .callPair (Builds.ruleTerm (.bound v) (by simpa [RuleTerm.bounds] using hv)) fun s₁ h₁ =>
      Builds.ruleTerm (.bound w) (by simpa [RuleTerm.bounds] using h₁.has hw)
  have hkeeps : Keeps s.Adds (op.make v w) fun _ => True :=
    have hadds := (allAdditive_adds s).toAdditive
    (hadds.keeps_made _ _ _).bind fun _ _ => (hadds.keeps_made _ _ _).bind fun _ _ =>
      hadds.keeps_made _ _ _
  obtain ⟨e, t, hrun, hst, -, he⟩ := hbuilds s .refl hs
  have hadds := (hkeeps.ok (.refl s) hrun).1
  refine ⟨e, t, hrun, hst, (he t .refl).2 fun r hr => ?_⟩
  rw [hadds.order, horders r hr.1]

/-- Comparing any two values that are there and do not hold themselves, given as literals: such
expressions can be made, for each of the six comparisons. In this store and in every later one,
however often they have been evaluated before, they come to a truth value, always the same, and
never to a fault. "Not equal" is the opposite of "equal", and each order relation is its own
opposite the other way round. At most one of "less", "equal" and "greater" comes out true. If both
values are numbers (truth values are, and what is not a number is not) or both are texts, exactly
one of them does, and "less or equal" is "less" or "equal". -/
theorem comparisons_fit [Host] (hs : s.WellFormed) (hc : c.registry.HasStandard)
    (hdepth : c.depth + 2 ≤ maxDepth) (hv : s.Comparand v) (hw : s.Comparand w) :
    ((∀ r, ¬ s.Has (.node r) → s.argOrder r = none) → ∀ op : Comparison, ∃ e t,
      op.make v w s = .ok e t ∧ s.Extends t ∧ t.ComparesLiterals op v w e) ∧
    ∃ there back : Comparison → Bool,
      (∀ op t e, s.Extends t → t.ComparesLiterals op v w e →
        (evaluate c e).ComesTo t (.ok (.bool (there op)))) ∧
      (∀ op t e, s.Extends t → t.ComparesLiterals op w v e →
        (evaluate c e).ComesTo t (.ok (.bool (back op)))) ∧
      there .neq = !there .eq ∧
      (∀ rel, there (.order rel) = back (.order rel.swap)) ∧
      (¬ (there (.order .lt) = true ∧ there .eq = true) ∧
        ¬ (there (.order .lt) = true ∧ there (.order .gt) = true) ∧
        ¬ (there .eq = true ∧ there (.order .gt) = true)) ∧
      (v.SameScale w →
        Exclusive (there (.order .lt)) (there .eq) (there (.order .gt)) ∧
          there (.order .le) = (there (.order .lt) || there .eq)) := by
  refine ⟨fun horders op => op.make_compares hs horders hv.has hw.has,
    Comparison.verdict s v w, Comparison.verdict s w v, ?_, ?_, rfl,
    Comparison.verdict_swap hs hv hw, ⟨?_, Comparison.not_less_and_greater, ?_⟩,
    Comparison.verdict_exclusive⟩
  · intro op t e hst he
    exact evaluate_compares hc hdepth he (Comparison.onValues_extends hs hst hv hw)
  · intro op t e hst he
    exact evaluate_compares hc hdepth he (Comparison.onValues_extends hs hst hw hv)
  · rintro ⟨hlt, heq⟩
    rw [(Comparison.verdict_of_equal hs hv heq).1] at hlt
    cases hlt
  · rintro ⟨heq, hgt⟩
    rw [(Comparison.verdict_of_equal hs hv heq).2] at hgt
    cases hgt

end

/-- Two lists that start with equal numbers and go on with lists that start with equal texts and then
differ by values that do not compare. -/
def Store.layered : Store :=
  let s := (initial.allocList [.str "x", .none]).2
  let s := (s.allocList [.bool true, .list ⟨0⟩]).2
  let s := (s.allocList [.str "x", .int 2]).2
  (s.allocList [.int 1, .list ⟨2⟩]).2

theorem Store.layered_wellFormed : layered.WellFormed :=
  initial_wellFormed.allocList (by decide) |>.allocList (by decide) |>.allocList (by decide)
    |>.allocList (by decide)

theorem Store.layered_comparand (i : ℕ) (h : i = 1 ∨ i = 3) : layered.Comparand (.list ⟨i⟩) := by
  have hend : EndsWithin layered.contents 3 (.list ⟨i⟩) := by
    rcases h with rfl | rfl <;> decide
  exact ⟨by rcases h with rfl | rfl <;> decide, hend.acyclic⟩

/-- In the last two levels the lists are still compared, and without a fault. -/
theorem layered_comparisons_fit : ∃ there back : Comparison → Bool,
    (∀ op : Comparison, ∃ e t u, op.make (.list ⟨1⟩) (.list ⟨3⟩) Store.layered = .ok e t ∧
      @evaluate Host.none (nestedContext 998) e t = .done (.bool (there op)) u) ∧
    there .neq = !there .eq ∧ there (.order .lt) = back (.order .gt) := by
  have horders : ∀ r, ¬ Store.layered.Has (.node r) → Store.layered.argOrder r = none :=
    fun r hr => dif_neg (show ¬ r.index < Store.layered.argOrders.size from hr)
  obtain ⟨hmake, there, back, hthere, -, hneq, hswap, -, -⟩ :=
    @comparisons_fit _ (nestedContext 998) _ _ Host.none Store.layered_wellFormed
      Registry.standard_hasStandard (by decide) (Store.layered_comparand 1 (.inl rfl))
      (Store.layered_comparand 3 (.inr rfl))
  refine ⟨there, back, fun op => ?_, hneq, hswap .lt⟩
  obtain ⟨e, t, hrun, hst, he⟩ := hmake horders op
  obtain ⟨u, -, heval⟩ := hthere op t e hst he
  exact ⟨e, t, u, hrun, heval⟩

end LiveTree
