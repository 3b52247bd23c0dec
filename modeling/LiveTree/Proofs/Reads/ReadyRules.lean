import LiveTree.Proofs.Eval.Comparison
import LiveTree.Proofs.Eval.Rules
import LiveTree.Proofs.Reads.Again
import LiveTree.Proofs.Reads.Seats

/-! Ready-made rules. Each is met by some values, and a constraint that is made with one holds at a
wrapper exactly if the value of its node meets the rule. Checking it can fail only for the rule that
a value is there, and only on a value that has no text. -/

namespace LiveTree

/-- The ready-made rules. -/
inductive ReadyRule where
  | required
  | minLength (n : Value)
  | maxLength (n : Value)
  | minValue (n : Value)
  | maxValue (n : Value)
  | inRange (low high : Value)
  deriving Inhabited

namespace ReadyRule

/-- The bounds in a rule. -/
def bounds : ReadyRule → List Value
  | required => []
  | minLength n => [n]
  | maxLength n => [n]
  | minValue n => [n]
  | maxValue n => [n]
  | inRange low high => [low, high]

/-- Makes the constraint. -/
def make (message : Option String) : ReadyRule → StoreM NodeRef
  | required => Make.required message
  | minLength n => Make.minLength n message
  | maxLength n => Make.maxLength n message
  | minValue n => Make.minValue n message
  | maxValue n => Make.maxValue n message
  | inRange low high => Make.inRange low high message

/-- What has to come out true. -/
def term : ReadyRule → RuleTerm
  | required => .both (.apply .isNotNull .own) (.apply .isNotBlank (.apply .toText .own))
  | minLength n => .compare .ge (.apply .textLength .own) (.bound n)
  | maxLength n => .compare .le (.apply .textLength .own) (.bound n)
  | minValue n => .compare .ge .own (.bound n)
  | maxValue n => .compare .le .own (.bound n)
  | inRange low high => .both (.compare .ge .own (.bound low)) (.compare .le .own (.bound high))

/-- The name of the constraint. -/
def name : ReadyRule → String
  | required => "required"
  | minLength _ => "min_length"
  | maxLength _ => "max_length"
  | minValue _ => "min_value"
  | maxValue _ => "max_value"
  | inRange _ _ => "in_range"

/-- The words for a failure that the caller has none for. -/
def usual : ReadyRule → StoreM String
  | required => pure "This field is required"
  | minLength n => (fun n => "Minimum " ++ n ++ " characters required") <$> Make.boundText n
  | maxLength n => (fun n => "Maximum " ++ n ++ " characters allowed") <$> Make.boundText n
  | minValue n => (fun n => "Minimum value is " ++ n) <$> Make.boundText n
  | maxValue n => (fun n => "Maximum value is " ++ n) <$> Make.boundText n
  | inRange low high => do
    return "Must be between " ++ (← Make.boundText low) ++ " and " ++ (← Make.boundText high)

/-- Whether a value meets a rule. It lies in a range if it meets the rules for the lower and for the
upper bound. What is not a text has no characters. -/
def Met (s : Store) (v : Value) : ReadyRule → Prop
  | required => v ≠ .none ∧ ∃ t, s.valueText v = .ok t ∧ ∃ ch ∈ t.toList, Text.isBlank ch = false
  | minLength n =>
    ∃ a, n.scalar? = some a ∧ Relation.le.scalars a (.int v.textOrEmpty.length) = true
  | maxLength n =>
    ∃ a, n.scalar? = some a ∧ Relation.le.scalars (.int v.textOrEmpty.length) a = true
  | minValue n => s.order .ge v n = .ok true
  | maxValue n => s.order .le v n = .ok true
  | inRange low high => s.order .ge v low = .ok true ∧ s.order .le v high = .ok true

theorem met_minLength_int {s : Store} {v : Value} {i : ℤ} :
    (minLength (.int i)).Met s v ↔ i ≤ v.textOrEmpty.length := by
  simp [Met, Value.scalar?, Relation.scalars_le_int]

end ReadyRule

/-! ### Making -/

namespace ReadyRule

theorem make_eq (rule : ReadyRule) (message : Option String) : rule.make message = (do
    let e ← rule.term.make
    let words ← Make.wordsOr message rule.usual
    Make.constraint rule.name (.node e) (some words)) := by
  cases rule <;>
    simp only [make, term, RuleTerm.make, name, usual, Make.required, Make.minLength,
      Make.maxLength, Make.minValue, Make.maxValue, Make.inRange, Make.lengthRule, Make.valueRule,
      bind_assoc] <;> rfl

theorem mem_bounds_of_mem_term {rule : ReadyRule} {b : Value} (h : b ∈ rule.term.bounds) :
    b ∈ rule.bounds := by
  cases rule with
  | required => cases h
  | _ => exact h

end ReadyRule

section

variable {s t : Store} {rule : ReadyRule} {r e : NodeRef} {name : String} {a : RuleTerm}

/-- Whether a node is a constraint that asks for what a ready-made rule does. -/
structure Store.Demands (s : Store) (rule : ReadyRule) (r : NodeRef) : Prop where
  has : s.Has (.node r)
  value : ∃ e, (s.node r).value = .node e ∧ s.Spells rule.term e

theorem Store.Demands.later (h : s.Demands rule r) (hst : s.Later t) : t.Demands rule r := by
  obtain ⟨e, hvalue, he⟩ := h.value
  exact ⟨hst.has h.has, e, by rw [hst.node h.has, hvalue], he.later hst⟩

/-- Whether nothing is remembered of the nodes that one store has more than another. -/
def Store.Untried (s t : Store) : Prop := ∀ r, s.Between t (.node r) → t.argOrder r = none

theorem Store.Untried.since {u : Store} (h : s.Untried u) (hst : s.Extends t) : t.Untried u :=
  fun r hr => h r ⟨fun hs => hr.1 (hst.has hs), hr.2⟩

theorem Store.Made.callsOn {args : List NodeRef} (h : s.Made t e name args)
    (hlength : args.length ≤ 10 ^ Text.numberLength) (hfresh : s.Untried t) :
    t.CallsOn name args e := by
  have hcall := h.calls hlength (hfresh e h.1)
  refine ⟨h.1.2, hcall.kind, hcall.id, hcall.children, fun keys hkeys => ?_⟩
  cases hcall.order.symm.trans hkeys

/-- Making a call of an operator on two arguments, one after the other. -/
theorem Builds.callPair {m k : StoreM NodeRef} {P Q : Store → NodeRef → Prop}
    (hm : Builds s m fun t e => t.Has (.node e) ∧ (s.Untried t → P t e))
    (hk : ∀ s₁, s.Extends s₁ → Builds s₁ k fun t e => t.Has (.node e) ∧ (s₁.Untried t → Q t e)) :
    Builds s (do
        let x ← m
        let y ← k
        Make.op name [x, y]) fun t e => t.Has (.node e) ∧
      (s.Untried t → ∃ x y, t.CallsOn name [x, y] e ∧ P t x ∧ Q t y) := by
  refine .bind hm fun x s₁ h₁ hx => .bind (hk s₁ h₁) fun y s₂ h₂ hy => ?_
  have hargs : ∀ z ∈ [x, y], s₂.Has (.node z) := by
    simpa using ⟨(hx s₂ h₂).1, (hy s₂ .refl).1⟩
  refine (Builds.op hargs).mono fun t e h₃ he => ⟨he.1.2, fun hfresh => ⟨x, y, ?_, ?_, ?_⟩⟩
  · exact (he.since (h₁.trans h₂)).callsOn (pair_le x y) hfresh
  · exact (hx t (h₂.trans h₃)).2 hfresh
  · exact (hy t h₃).2 (hfresh.since h₁)

/-- Making an expression builds nodes that are that expression. -/
theorem Builds.ruleTerm (a : RuleTerm) (hbounds : ∀ b ∈ a.bounds, s.Has b) :
    Builds s a.make fun t e => t.Has (.node e) ∧ (s.Untried t → t.Spells a e) := by
  induction a generalizing s with
  | own =>
    have hpath : Builds s (Make.ref (Text.undotted ["self", "value"])) fun t e =>
        t.Has (.node e) ∧ t.IsRef e ["self", "value"] := .ref (by decide) (by decide)
    exact hpath.mono fun t e _ he => ⟨he.1, fun _ => he⟩
  | bound v =>
    exact (Builds.lit (hbounds v (List.mem_singleton.mpr rfl))).mono fun t e _ he =>
      ⟨he.1.2, fun _ => ⟨he.1.2, he.2⟩⟩
  | apply f a ih =>
    refine .bind (ih hbounds) fun x s₁ h₁ hx => ?_
    have hargs : ∀ z ∈ [x], s₁.Has (.node z) := by simpa using (hx s₁ .refl).1
    refine (Builds.op hargs).mono fun t e h₂ he => ⟨he.1.2, fun hfresh => ⟨x, ?_, ?_⟩⟩
    · exact (he.since h₁).callsOn (Store.single_le x) hfresh
    · exact (hx t h₂).2 hfresh
  | compare rel a b iha ihb =>
    obtain ⟨ha, hb⟩ := List.forall_mem_append.mp hbounds
    exact .callPair (iha ha) fun s₁ h₁ => ihb fun v hv => h₁.has (hb v hv)
  | both a b iha ihb =>
    obtain ⟨ha, hb⟩ := List.forall_mem_append.mp hbounds
    exact .callPair (iha ha) fun s₁ h₁ => ihb fun v hv => h₁.has (hb v hv)

/-- A plain node can be made with any constraints that are there. -/
theorem Builds.property {id : String} {v : Value} {constraints : Entries NodeRef} (hv : s.Has v)
    (hconstraints : ∀ q ∈ constraints.values, s.Has (.node q)) :
    Builds s (Make.property id { value := v, constraints := constraints }) fun t p =>
      s.Between t (.node p) ∧
        t.node p = ⟨id, Builtin.property, .plain, v, .none, ∅, constraints, ∅⟩ :=
  .ofBuiltin "Property" (by decide) ⟨hv, trivial, nofun, hconstraints, nofun⟩

theorem Builds.constraint {words : String} (he : s.Has (.node e)) :
    Builds s (Make.constraint name (.node e) (some words)) fun t r =>
      t.Has (.node r) ∧ (t.node r).value = .node e := by
  have hmessage : Builds s (Make.property "message" { value := .str words }) fun t m =>
      t.Has (.node m) := by
    have hnode : Builds s (Make.property "message" { value := .str words }) _ :=
      .ofBuiltin "Property" (by decide) (.ofValue trivial)
    exact hnode.mono fun t m _ hm => hm.1.2
  refine .bind hmessage fun m s₁ h₁ hm => ?_
  have hmetadata : ∀ q ∈ (Entries.ofList [("message", m)]).values, s₁.Has (.node q) := by
    intro q hq
    obtain rfl : q = m := by simpa using Entries.mem_values_ofList hq
    exact hm s₁ .refl
  have hnode : Builds s₁ (Make.node name Builtin.constraint
      { value := .node e, metadata := .ofList [("message", m)] }) _ :=
    .ofBuiltin "Constraint" (by decide) ⟨h₁.has he, trivial, hmetadata, nofun, nofun⟩
  exact hnode.mono fun t r _ hr => ⟨hr.1.2, by rw [hr.2]⟩

theorem Make.boundText_cases (v : Value) (s : Store) :
    (∃ text, boundText v s = .ok text s) ∨
      ∃ e, boundText v s = .error e s ∧ s.valueText v = .error e := by
  rw [boundText, StoreM.check, bind_of_ok (show (get : StoreM Store) s = .ok s s from rfl)]
  cases s.valueText v with
  | ok text => exact .inl ⟨text, rfl⟩
  | error e => exact .inr ⟨e, rfl, rfl⟩

theorem ReadyRule.usual_cases (rule : ReadyRule) (s : Store) :
    (∃ words, rule.usual s = .ok words s) ∨
      ∃ e, rule.usual s = .error e s ∧ ∃ b ∈ rule.bounds, s.valueText b = .error e := by
  have single : ∀ (f : String → String) (v : Value),
      (∃ words, (f <$> Make.boundText v) s = .ok words s) ∨
        ∃ e, (f <$> Make.boundText v) s = .error e s ∧ ∃ b ∈ [v], s.valueText b = .error e := by
    intro f v
    rw [map_eq_pure_bind]
    rcases Make.boundText_cases v s with ⟨text, hrun⟩ | ⟨e, hrun, he⟩
    · exact .inl ⟨f text, bind_of_ok hrun _⟩
    · exact .inr ⟨e, bind_of_error hrun _, v, List.mem_singleton.mpr rfl, he⟩
  cases rule with
  | required => exact .inl ⟨_, rfl⟩
  | inRange low high =>
    rcases Make.boundText_cases low s with ⟨lowText, hlow⟩ | ⟨e, hlow, he⟩
    · rcases Make.boundText_cases high s with ⟨highText, hhigh⟩ | ⟨e, hhigh, he⟩
      · exact .inl ⟨_, (bind_of_ok hlow _).trans (bind_of_ok hhigh _)⟩
      · refine .inr ⟨e, ?_, high, by simp [bounds], he⟩
        exact (bind_of_ok hlow _).trans (bind_of_error hhigh _)
    · exact .inr ⟨e, bind_of_error hlow _, low, by simp [bounds], he⟩
  | _ => exact single _ _

/-- Words for a failure are there unless the text of a bound is asked for that has none. -/
theorem ReadyRule.words_cases (rule : ReadyRule) (message : Option String) (s : Store) :
    (∃ words, Make.wordsOr message rule.usual s = .ok words s) ∨
      ∃ e, Make.wordsOr message rule.usual s = .error e s ∧ message.getD "" = "" ∧
        ∃ b ∈ rule.bounds, s.valueText b = .error e := by
  have husual := rule.usual_cases s
  cases message with
  | none => simpa [Make.wordsOr] using husual
  | some text =>
    rw [Make.wordsOr]
    split
    case isTrue hempty => simpa [String.isEmpty_iff.mp hempty] using husual
    case isFalse => exact .inl ⟨text, rfl⟩

namespace Store.Additive

variable {I : Store → Prop} (h : Additive I)

include h

theorem keeps_ownValue : Keeps I Make.ownValue fun _ => True :=
  have hlist : Keeps I (StoreM.update (·.allocList (["self", "value"].map .str))) fun _ => True :=
    .modifyGet fun u hu => ⟨h.list u _ hu, trivial⟩
  hlist.bind fun _ _ => h.keeps_made _ _ _

theorem keeps_ruleTerm (a : RuleTerm) : Keeps I a.make fun _ => True := by
  induction a with
  | own => exact h.keeps_ownValue
  | bound v => exact h.keeps_made _ _ _
  | apply f a ih => exact ih.bind fun _ _ => h.keeps_made _ _ _
  | compare rel a b iha ihb => exact iha.bind fun _ _ => ihb.bind fun _ _ => h.keeps_made _ _ _
  | both a b iha ihb => exact iha.bind fun _ _ => ihb.bind fun _ _ => h.keeps_made _ _ _

theorem keeps_readyRule (rule : ReadyRule) (message : Option String) :
    Keeps I (rule.make message) fun _ => True := by
  rw [rule.make_eq]
  have hwords : Keeps I (Make.wordsOr message rule.usual) fun _ => True := by
    intro s hs
    rcases rule.words_cases message s with ⟨words, hrun⟩ | ⟨e, hrun, -⟩
    · rw [hrun]
      exact ⟨hs, trivial⟩
    · rw [hrun]
      exact hs
  have hmessage : ∀ words, Keeps I (Make.property "message" { value := .str words }) fun _ => True :=
    fun _ => h.keeps_made _ _ _
  exact (h.keeps_ruleTerm _).bind fun e _ => hwords.bind fun words _ =>
    (hmessage words).bind fun _ _ => h.keeps_made _ _ _

end Store.Additive

end

/-! ### What rules come to -/

namespace RuleTerm

/-- What comes out of an expression as a condition. -/
def verdict (s : Store) (v : Value) (a : RuleTerm) : Except Fault Bool := s.truthy <$> a.meaning s v

variable {s : Store} {v x y : Value} {a b : RuleTerm} {rel : Relation}

theorem verdict_compare (ha : a.meaning s v = .ok x) (hb : b.meaning s v = .ok y) :
    (compare rel a b).verdict s v = lenient (s.order rel x y) := by
  rw [verdict, meaning, ha, hb]
  show s.truthy <$> (lenient (s.order rel x y) >>= fun found => pure (.bool found)) = _
  cases lenient (s.order rel x y) <;> rfl

theorem verdict_both : (both a b).verdict s v = do
    if ← a.verdict s v then b.verdict s v else return false := by
  rw [verdict, verdict, verdict, meaning]
  cases a.meaning s v with
  | error e => rfl
  | ok x =>
    show s.truthy <$> (if s.truthy x then _ else _) = if s.truthy x then _ else _
    split
    · cases b.meaning s v <;> rfl
    · rfl

end RuleTerm

section

variable {s : Store} {v n : Value} {rel : Relation}

/-- Nothing is left of a text without its blank ends exactly if it is blank all over. -/
theorem Text.strip_isEmpty (cs : List Char) :
    (Text.strip cs).isEmpty = true ↔ ∀ ch ∈ cs, Text.isBlank ch = true := by
  have hend : (cs.dropWhile isBlank = []) ↔ ∀ ch ∈ cs.dropWhile isBlank, isBlank ch = true := by
    refine ⟨fun h => by simp [h], fun h => ?_⟩
    by_contra hne
    have hfirst := List.head_dropWhile_not isBlank hne
    rw [h _ (List.head_mem hne)] at hfirst
    cases hfirst
  rw [strip, List.isEmpty_reverse, List.isEmpty_iff, List.dropWhile_eq_nil_iff]
  simp only [List.mem_reverse]
  rw [← hend, List.dropWhile_eq_nil_iff]

/-- The rule that a value is there asks for a text that is not blank. -/
theorem ReadyRule.verdict_required :
    (required.term.verdict s v = .ok true ↔ required.Met s v) ∧
      ∀ e, required.term.verdict s v = .error e → v ≠ .none ∧ s.valueText v = .error e := by
  by_cases hnone : v = .none
  · subst hnone
    have hverdict : required.term.verdict s .none = .ok false := rfl
    simp [hverdict, Met]
  · have hverdict : required.term.verdict s v =
        (fun t : String => !(Text.strip t.toList).isEmpty) <$> s.valueText v := by
      have hpresent : (RuleTerm.apply .isNotNull .own).verdict s v = .ok true := by
        cases v <;> first | rfl | exact absurd rfl hnone
      have hshown : s.shownText v = s.valueText v := by
        cases v <;> first | rfl | exact absurd rfl hnone
      rw [term, RuleTerm.verdict_both, hpresent]
      show s.truthy <$> ((Value.str <$> s.shownText v) >>= fun w =>
        RuleFunction.isNotBlank.onValue s w) = _
      rw [hshown]
      cases s.valueText v <;> rfl
    rw [hverdict]
    cases htext : s.valueText v with
    | ok t =>
      have hinked : (!(Text.strip t.toList).isEmpty) = true ↔
          ∃ ch ∈ t.toList, Text.isBlank ch = false := by
        rw [Bool.not_eq_true', ← Bool.not_eq_true, Text.strip_isEmpty]
        simp
      refine ⟨(Iff.of_eq (Except.ok.injEq _ _)).trans (hinked.trans ?_), nofun⟩
      refine ⟨fun hink => ⟨hnone, t, htext, hink⟩, ?_⟩
      rintro ⟨-, t', ht', hink⟩
      obtain rfl := Except.ok.inj (htext.symm.trans ht')
      exact hink
    | error e =>
      refine ⟨⟨nofun, fun ⟨_, t, ht, _⟩ => ?_⟩, fun e' he' =>
        ⟨hnone, congrArg Except.error (Except.error.inj he')⟩⟩
      cases htext.symm.trans ht

/-- The length of a value compares with numbers only, and comparing it comes to an end. -/
theorem ReadyRule.verdict_length (rel : Relation) (n : Value) :
    ((RuleTerm.compare rel (.apply .textLength .own) (.bound n)).verdict s v = .ok true ↔
      ∃ a, n.scalar? = some a ∧ rel.scalars (.int v.textOrEmpty.length) a = true) ∧
    ∃ b, (RuleTerm.compare rel (.apply .textLength .own) (.bound n)).verdict s v = .ok b := by
  rw [RuleTerm.verdict_compare (x := .int v.textOrEmpty.length) rfl rfl, Store.order_int]
  cases n.scalar? <;> simp [lenient]

/-- Comparing a value comes to an end. -/
theorem ReadyRule.verdict_value (h : EndsWithin s.parts s.depthBound v) (rel : Relation)
    (n : Value) :
    ((RuleTerm.compare rel .own (.bound n)).verdict s v = .ok true ↔ s.order rel v n = .ok true) ∧
    ∃ found, (RuleTerm.compare rel .own (.bound n)).verdict s v = .ok found := by
  rw [RuleTerm.verdict_compare rfl rfl]
  exact ⟨lenient_eq_true, Store.orderTo_returns (h.of_subset s.contents_subset_parts) n⟩

/-- A rule comes out true exactly for the values that meet it, and only the rule that a value is
there can fail. -/
theorem ReadyRule.verdict_iff (h : EndsWithin s.parts s.depthBound v) (rule : ReadyRule) :
    (rule.term.verdict s v = .ok true ↔ rule.Met s v) ∧ ∀ e, rule.term.verdict s v = .error e →
      rule = .required ∧ v ≠ .none ∧ s.valueText v = .error e := by
  cases rule with
  | required =>
    obtain ⟨hiff, herror⟩ := verdict_required (s := s) (v := v)
    exact ⟨hiff, fun e he => ⟨rfl, herror e he⟩⟩
  | minLength n =>
    obtain ⟨hiff, found, hfound⟩ := verdict_length (s := s) (v := v) .ge n
    refine ⟨hiff.trans ?_, fun e he => nomatch hfound.symm.trans he⟩
    simp only [Relation.scalars_ge]
    rfl
  | maxLength n =>
    obtain ⟨hiff, found, hfound⟩ := verdict_length (s := s) (v := v) .le n
    exact ⟨hiff, fun e he => nomatch hfound.symm.trans he⟩
  | minValue n =>
    obtain ⟨hiff, found, hfound⟩ := verdict_value h .ge n
    exact ⟨hiff, fun e he => nomatch hfound.symm.trans he⟩
  | maxValue n =>
    obtain ⟨hiff, found, hfound⟩ := verdict_value h .le n
    exact ⟨hiff, fun e he => nomatch hfound.symm.trans he⟩
  | inRange low high =>
    obtain ⟨hlow, found, hfound⟩ := verdict_value h .ge low
    obtain ⟨hhigh, found', hfound'⟩ := verdict_value h .le high
    rw [term, RuleTerm.verdict_both, Met, ← hlow, ← hhigh, hfound, hfound']
    cases found <;> cases found' <;> simp [pure, Except.pure, bind, Except.bind]

end

/-! ### Checking -/

section

variable {σ α : Type} {x : World σ} {w : WrapperRef} {g : Registry} {v : Value} {rule : ReadyRule}
  {key : String} {r : NodeRef}

/-- Whether an operation on a world comes to a result and only remembers argument orders. -/
def TreeM.ComesTo (m : TreeM σ α) (x : World σ) (found : Except Fault α) : Prop :=
  ∃ t, x.forest.store.Remembers t ∧ m x = match found with
    | .ok a => .ok a (x.withStore t)
    | .error e => .error e (x.withStore t)

theorem TreeM.ComesTo.of_eq {m m' : TreeM σ α} {found : Except Fault α} (hm : m x = m' x)
    (h : m'.ComesTo x found) : m.ComesTo x found :=
  have ⟨t, hst, hrun⟩ := h
  ⟨t, hst, hm.trans hrun⟩

theorem TreeM.ComesTo.eval {m : EvalM α} {found : Except Fault α}
    (h : m.ComesTo x.forest.store found) : (TreeM.eval m).ComesTo x found := by
  obtain ⟨t, hst, hrun⟩ := h
  refine ⟨t, hst, ?_⟩
  cases found with
  | ok a => exact TreeM.eval_done hrun
  | error e => exact TreeM.eval_failed hrun

theorem EvalM.ComesTo.mapFault {s : Store} {m : EvalM α} {found : Except Fault α}
    (h : m.ComesTo s found) (f : Fault → Fault) : (m.mapFault f).ComesTo s (found.mapError f) := by
  obtain ⟨t, hst, hrun⟩ := h
  refine ⟨t, hst, ?_⟩
  rw [EvalM.mapFault, hrun]
  cases found <;> rfl

/-- A constraint at a seat with the standard operators comes to what its expression does. -/
theorem Seat.constraint_spells [Host] {p : Seat} {s : Store} {a : RuleTerm} {e : NodeRef}
    (hregistry : p.registry = some g) (hg : g.HasStandard) (hv : s.Bears p.node v)
    (hkey : (s.node p.node).constraints.get? key = some r) (hvalue : (s.node r).value = .node e)
    (he : s.Spells a e) (hheight : a.height ≤ maxDepth.toNat) :
    (p.constraint key).ComesTo s ((a.verdict s v).mapError Fault.orTooDeep) := by
  have hrun : (p.constraint key) s =
      (evaluate (p.contextWith g) e >>= fun w => EvalM.read (·.truthy w)) s := by
    rw [constraint, EvalM.read_bind]
    simp only [id, hkey, hvalue, context, hregistry]
    rfl
  have heval : (evaluate (p.contextWith g) e).ComesTo s
      ((a.meaning s v).mapError Fault.orTooDeep) :=
    (evaluateWithin_spells (c := p.contextWith g) hg hv he hheight).mapFault _
  have htruth : ∀ w t, s.Remembers t →
      (EvalM.read fun u => u.truthy w).ComesTo t (.ok (s.truthy w)) := fun w t hst =>
    ⟨t, .refl t, by rw [← hst.truthy_eq]; rfl⟩
  refine .of_eq (.refl s) hrun ?_
  have hbind := heval.bind htruth
  rw [RuleTerm.verdict]
  cases hmeaning : a.meaning s v <;> rw [hmeaning] at hbind <;> exact hbind

theorem ReadyRule.height_le (rule : ReadyRule) : rule.term.height ≤ 4 := by
  cases rule <;> simp [term, RuleTerm.height]

/-- Making a constraint with a ready-made rule adds cells and gives a constraint that asks for what
the rule does, unless the caller has no words for a failure and some bound has no text. -/
theorem ReadyRule.make_demands {s : Store} (rule : ReadyRule) (message : Option String)
    (hs : s.WellFormed) (horders : ∀ r, ¬ s.Has (.node r) → s.argOrder r = none)
    (hbounds : ∀ b ∈ rule.bounds, s.Has b) :
    (∃ r t, rule.make message s = .ok r t ∧ s.Later t ∧ t.WellFormed ∧ t.Demands rule r) ∨
      ∃ e t, rule.make message s = .error e t ∧ message.getD "" = "" ∧
        ∃ b ∈ rule.bounds, t.valueText b = .error e := by
  have hterm := Builds.ruleTerm rule.term fun b hb => hbounds b (mem_bounds_of_mem_term hb)
  obtain ⟨e, s₁, hterm, -, hs₁, he⟩ := hterm s .refl hs
  rcases rule.words_cases message s₁ with ⟨words, hwords⟩ | ⟨e', hwords, hnone, hbound⟩
  · have hmade : Builds s₁ (Make.constraint rule.name (.node e) (some words)) fun t r =>
      t.Has (.node r) ∧ (t.node r).value = .node e := .constraint (he s₁ .refl).1
    obtain ⟨r, t, hmade, h₁t, ht, hr⟩ := hmade s₁ .refl hs₁
    have hrun : rule.make message s = .ok r t := by
      rw [rule.make_eq]
      exact (bind_of_ok hterm _).trans ((bind_of_ok hwords _).trans hmade)
    have hlater := ((Store.additive_later s).keeps_readyRule rule message).ok (.refl s) hrun
    have hadds := ((allAdditive_adds s).keeps_readyRule rule message).ok (.refl s) hrun
    have hfresh : s.Untried t := fun q hq => by rw [hadds.1.order, horders q hq.1]
    obtain ⟨hhas, hvalue⟩ := hr t .refl
    exact .inl ⟨r, t, hrun, hlater.1, ht, hhas, e, hvalue, (he t h₁t).2 hfresh⟩
  · refine .inr ⟨e', s₁, ?_, hnone, hbound⟩
    rw [rule.make_eq]
    exact (bind_of_ok hterm _).trans (bind_of_error hwords _)

/-- With words of the caller's, a constraint is made with any ready-made rule; without any, only a
bound that has no text prevents it. In every tree and at any time after, as long as the constraint
is left as it is, checking it at a living wrapper with the standard operators, whose node is no
expression and holds plain data, comes to whether the value meets the rule, and only remembers
argument orders. A value that does not compare with a bound is neither above nor below. Checking
can fail only for the rule that a value is there, on a value that has no text. -/
theorem ready_rules_checked [Host] (rule : ReadyRule) :
    (∀ (s : Store) (message : Option String), s.WellFormed →
      (∀ r, ¬ s.Has (.node r) → s.argOrder r = none) → (∀ b ∈ rule.bounds, s.Has b) →
      (∃ r t, rule.make message s = .ok r t ∧ s.Later t ∧ t.WellFormed ∧ t.Demands rule r) ∨
        ∃ e t, rule.make message s = .error e t ∧ message.getD "" = "" ∧
          ∃ b ∈ rule.bounds, t.valueText b = .error e) ∧
    ∀ (x : World σ) (w : WrapperRef) (g : Registry) (v : Value) (key : String) (r : NodeRef),
      x.forest.store.WellFormed → (x.forest.wrapper w).destroyed = false →
      x.forest.registry w = some g → g.HasStandard →
      x.forest.store.Has (.node (x.forest.wrapper w).node) →
      x.forest.store.Bears (x.forest.wrapper w).node v → Acyclic x.forest.store.parts v →
      (x.forest.nodeAt w).constraints.get? key = some r → x.forest.store.Demands rule r →
      ∃ found, (TreeM.getConstraint w key).ComesTo x found ∧
        (found = .ok true ↔ rule.Met x.forest.store v) ∧
        (∀ n, rule = .minValue n ∨ rule = .maxValue n → ¬ x.forest.store.Compares v n →
          found = .ok false) ∧
        ∀ e, found = .error e →
          rule = .required ∧ v ≠ .none ∧ ∀ t, x.forest.store.valueText v ≠ .ok t := by
  refine ⟨fun s message => rule.make_demands message, ?_⟩
  intro x w g v key r hs hlive hregistry hg hhas hv hacyclic hkey hr
  obtain ⟨e, hvalue, he⟩ := hr.value
  have hends : EndsWithin x.forest.store.parts x.forest.store.depthBound v := by
    refine hs.endsWithin (hs.has_parts hhas v ?_) hacyclic
    exact hv.value ▸ Node.value_mem_parts _
  obtain ⟨hiff, herror⟩ := rule.verdict_iff hends
  have hheight : rule.term.height ≤ maxDepth.toNat := Nat.le_trans rule.height_le (by decide)
  have hseat : ((x.forest.seat w).constraint key).ComesTo x.forest.store _ :=
    Seat.constraint_spells hregistry hg hv hkey hvalue he hheight
  have hcheck : (TreeM.getConstraint w key).ComesTo x _ :=
    .of_eq (TreeM.Means.getConstraint hlive key x.forest.store) (.eval hseat)
  cases hfound : rule.term.verdict x.forest.store v with
  | ok b =>
    rw [hfound] at hcheck hiff
    refine ⟨.ok b, hcheck, hiff, fun n hn hnot => ?_, nofun⟩
    cases b with
    | false => rfl
    | true =>
      refine absurd (hiff.mp rfl) ?_
      rcases hn with rfl | rfl
      exacts [fun hmet => hnot ⟨_, _, hmet⟩, fun hmet => hnot ⟨_, _, hmet⟩]
  | error e =>
    obtain ⟨rfl, hnone, htext⟩ := herror e hfound
    rw [hfound] at hcheck hiff
    refine ⟨.error e.orTooDeep, hcheck, ⟨nofun, fun hmet => nomatch hiff.mpr hmet⟩, ?_, ?_⟩
    · rintro n (hn | hn) <;> cases hn
    · exact fun e' _ => ⟨rfl, hnone, fun t ht => nomatch htext.symm.trans ht⟩

/-- Nothing is remembered of nodes that are not there yet. -/
theorem Store.initial_argOrder (r : NodeRef) (hr : ¬ initial.Has (.node r)) :
    initial.argOrder r = none := dif_neg (show ¬ r.index < initial.argOrders.size from hr)

/-- A code of three characters is not shorter than two, and it does not compare with five. -/
theorem code_checked : ∃ (x : World Unit) (w : WrapperRef),
    x.forest.store.Bears (x.forest.wrapper w).node (.str "abc") ∧
      (@TreeM.getConstraint Unit Host.none w "size").ComesTo x (.ok true) ∧
      (@TreeM.getConstraint Unit Host.none w "floor").ComesTo x (.ok false) := by
  obtain ⟨hmake₁, hcheck₁⟩ := @ready_rules_checked Unit Host.none (.minLength (.int 2))
  obtain ⟨hmake₂, hcheck₂⟩ := @ready_rules_checked Unit Host.none (.minValue (.int 5))
  have hbound : ∀ (s : Store) (i : ℤ), ∀ b ∈ [Value.int i], s.Has b := by simp [Store.Has]
  obtain ⟨r₁, s₁, hrun₁, hlater₁, hs₁, hr₁⟩ := (hmake₁ Store.initial (some "Too short")
    Store.initial_wellFormed Store.initial_argOrder (hbound _ 2)).resolve_right (by
      rintro ⟨_, _, _, h, _⟩
      simp at h)
  have hadds := (((allAdditive_adds _).keeps_readyRule _ _).ok (.refl _) hrun₁).1
  have horders₁ : ∀ r, ¬ s₁.Has (.node r) → s₁.argOrder r = none := fun r hr => by
    rw [hadds.order, Store.initial_argOrder r (mt hadds.cells.has hr)]
  obtain ⟨r₂, s₂, -, hlater₂, hs₂, hr₂⟩ := (hmake₂ s₁ (some "Too low") hs₁ horders₁
    (hbound _ 5)).resolve_right (by
      rintro ⟨_, _, _, h, _⟩
      simp at h)
  have hmade : ∀ r ∈ (Entries.ofList [("size", r₁), ("floor", r₂)]).values, s₂.Has (.node r) := by
    intro r hr
    rcases (show r = r₁ ∨ r = r₂ by simpa using Entries.mem_values_ofList hr) with rfl | rfl
    exacts [hlater₂.has hr₁.has, hr₂.has]
  have hcode : Builds s₂ (Make.property "code" { value := .str "abc", constraints := _ }) _ :=
    .property trivial hmade
  obtain ⟨p, u, hrun, -, hu, hp⟩ := hcode s₂ .refl hs₂
  obtain ⟨hbetween, hnode⟩ := hp u .refl
  have hlater := ((Store.additive_later s₂).keeps_made _ _ _ |>.ok (.refl s₂) hrun).1
  let f := (⟨u, #[]⟩ : Forest).allocWrapper (.ofNode p (some Registry.standard))
  have htops : f.2.Tops f.1 p Registry.standard := Forest.tops_wrap ⟨u, #[]⟩ p Registry.standard
  have hstandard := Registry.standard_hasStandard
  have hbears : u.Bears (f.2.wrapper f.1).node (.str "abc") := by
    rw [htops.node]
    exact ⟨by rw [hnode]; rfl, by rw [hnode], rfl⟩
  have hacyclic : Acyclic u.parts (.str "abc") :=
    EndsWithin.acyclic (n := 1) fun _ h => absurd h List.not_mem_nil
  have hhas : u.Has (.node (f.2.wrapper f.1).node) := htops.node ▸ hbetween.2
  have hconstraints : (f.2.nodeAt f.1).constraints = .ofList [("size", r₁), ("floor", r₂)] := by
    rw [Forest.nodeAt, htops.node]
    exact congrArg Node.constraints hnode
  have hsize : (f.2.nodeAt f.1).constraints.get? "size" = some r₁ := hconstraints ▸ rfl
  have hfloor : (f.2.nodeAt f.1).constraints.get? "floor" = some r₂ := hconstraints ▸ rfl
  obtain ⟨found₁, hfound₁, hmet, -⟩ := hcheck₁ ⟨f.2, ()⟩ f.1 _ _ "size" r₁ hu htops.live
    htops.registry_eq hstandard hhas hbears hacyclic hsize (hr₁.later (hlater₂.trans hlater))
  obtain ⟨found₂, hfound₂, -, hlow, -⟩ := hcheck₂ ⟨f.2, ()⟩ f.1 _ _ "floor" r₂ hu htops.live
    htops.registry_eq hstandard hhas hbears hacyclic hfloor (hr₂.later hlater)
  obtain rfl := hmet.mpr (ReadyRule.met_minLength_int.mpr (by decide))
  obtain rfl := hlow (.int 5) (.inl rfl) (u.not_compares (.inr (by decide)))
  exact ⟨⟨f.2, ()⟩, f.1, hbears, hfound₁, hfound₂⟩

end

end LiveTree
