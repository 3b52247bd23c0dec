import LiveTree.Proofs.Eval.Levels
import LiveTree.Proofs.Reads.Grounded
import LiveTree.Proofs.Reads.SeatRuns
import LiveTree.Proofs.Tree.References

/-! What a validation says of a constraint, and what reading the constraint says of it. Validation
goes by what a rule and its message hold. So does a reading of them, unless they are expressions
themselves; then validation looks at the wrong thing. For the others a constraint is reported if and
only if a reference to it reads as false, in the words of its message read like any other entry. -/

namespace LiveTree

variable {σ α β : Type}

/-- Whether a node stands for what its value stands for: it is no expression, or a literal of a value
that is not a node. -/
def Node.GoesByValue (n : Node) : Prop :=
  n.kind.isExpression = false ∨ n.kind = .lit ∧ n.value.asNode? = none

/-- The words for a constraint without words of its own. -/
def usualMessage (key : String) : String := "Constraint " ++ key ++ " failed"

/-- The path from a node to a constraint of it. -/
def constraintPath (key : String) : Path := ["self", "constraints", key]

/-- The text of a rule's message, read as metadata are read, or the usual words if there is no
message or it reads as absent. -/
def TreeM.words [Host] (c : Context) (key : String) (rule : NodeRef) : TreeM σ String := do
  match ((← forest).store.node rule).metadata.get? "message" with
  | none => return usualMessage key
  | some m => do
    let v ← readNode c m
    if v.isNone then return usualMessage key else check (·.valueText v)

/-- What is to be said of a constraint if one goes by readings: nothing if the reading of it counts
as true, and the words of its message else. -/
def TreeM.review [Host] (c : Context) (reading : EvalM Value) (key : String) (rule : NodeRef) :
    TreeM σ (Option String) := do
  let v ← eval reading
  if ← isTrue v then return none
  else do
    let text ← words c key rule
    return some text

/-- Whether reviewing a constraint in a world comes to a certain result, by the path to it and, as
far as that comes to anything, by any reference with this path. -/
structure World.Reviews [Host] (x : World σ) (c : Context) (key : String) (rule : NodeRef)
    (said : Option String) : Prop where
  byPath : ∃ z, TreeM.review c (resolveSegments evaluate c ((constraintPath key).map .name)) key rule
    x = .ok said z
  byRef : ∀ e said' z, x.forest.store.IsRef e (constraintPath key) →
    TreeM.review c (evaluate c e) key rule x = .ok said' z → said' = said

/-! ### What a seat reports -/

namespace Failures

variable {failures : Failures} {key : String}

/-- Failures with what is said of one more constraint, if anything. -/
def withReport (failures : Failures) (key : String) : Option String → Failures
  | none => failures
  | some text => failures.insert key text

theorem get?_withReport_self (h : failures.get? key = none)
    (said : Option String) : (failures.withReport key said).get? key = said := by
  cases said with
  | none => exact h
  | some text => exact Entries.get?_insert_self _ _ _

theorem get?_withReport_of_ne {key' : String} (h : key ≠ key')
    (said : Option String) : (failures.withReport key' said).get? key = failures.get? key := by
  cases said with
  | none => rfl
  | some text => exact Entries.get?_insert_of_ne _ _ h

end Failures

namespace Seat

variable [Host] {p : Seat} {key : String} {rule : NodeRef} {s t u : Store} {g : Registry}

/-- What is said of one constraint at a seat. -/
def report (p : Seat) (key : String) (rule : NodeRef) : EvalM (Option String) := do
  if ← p.constraint key then return none
  else do
    let text ← p.message key rule
    return some text

theorem Standard.report (hp : p.Standard) (key : String) (rule : NodeRef) :
    (p.report key rule).Calm := by
  refine (hp.constraint key).bind fun holds => ?_
  cases holds with
  | true => exact .pure none
  | false => exact (hp.message key rule).bind fun text => .pure (some text)

theorem checkAll_cons_eq_done {failures found : Failures} {q : String × NodeRef}
    {l : List (String × NodeRef)} (h : p.checkAll failures (q :: l) s = .done found t) :
    ∃ said u, p.report q.1 q.2 s = .done said u ∧
      p.checkAll (failures.withReport q.1 said) l u = .done found t := by
  obtain ⟨holds, u, hholds, hrest⟩ := EvalM.bind_eq_done h
  cases holds with
  | true => exact ⟨none, u, EvalM.bind_of_done hholds _, hrest⟩
  | false =>
    obtain ⟨text, v, htext, hrest⟩ := EvalM.bind_eq_done hrest
    refine ⟨some text, v, (EvalM.bind_of_done hholds _).trans ?_, hrest⟩
    exact EvalM.bind_of_done htext _

theorem checkAll_get?_of_not_mem {failures found : Failures} {l : List (String × NodeRef)}
    (hkey : key ∉ l.map Prod.fst) (h : p.checkAll failures l s = .done found t) :
    found.get? key = failures.get? key := by
  induction l generalizing failures s with
  | nil =>
    cases h
    rfl
  | cons q rest ih =>
    obtain ⟨hne, hrest⟩ : key ≠ q.1 ∧ key ∉ rest.map Prod.fst := by simpa using hkey
    obtain ⟨said, u, -, h⟩ := checkAll_cons_eq_done h
    rw [ih hrest h, Failures.get?_withReport_of_ne hne]

/-- What is found of a constraint among others is what is said of it at some moment. -/
theorem checkAll_reports (hp : p.Standard) {failures found : Failures}
    {l : List (String × NodeRef)} (hnodup : (l.map Prod.fst).Nodup) (hmem : (key, rule) ∈ l)
    (hfree : failures.get? key = none) (h : p.checkAll failures l s = .done found t) :
    ∃ s' u, s.Later s' ∧ s'.nodes = s.nodes ∧ p.report key rule s' = .done (found.get? key) u := by
  induction l generalizing failures s with
  | nil => cases hmem
  | cons q rest ih =>
    obtain ⟨hnotin, hnodup⟩ := List.nodup_cons.mp hnodup
    obtain ⟨said, u, hfirst, hrest⟩ := checkAll_cons_eq_done h
    rcases List.mem_cons.mp hmem with rfl | hmem
    · refine ⟨s, u, .refl s, rfl, ?_⟩
      rw [checkAll_get?_of_not_mem hnotin hrest, Failures.get?_withReport_self hfree]
      exact hfirst
    · have hne : key ≠ q.1 := by
        rintro rfl
        exact hnotin (List.mem_map.mpr ⟨_, hmem, rfl⟩)
      obtain ⟨hs, hn⟩ := (hp.report q.1 q.2).done hfirst
      obtain ⟨s', u', hs', hn', hreport⟩ :=
        ih hnodup hmem ((Failures.get?_withReport_of_ne hne said).trans hfree) hrest
      exact ⟨s', u', hs.trans hs', hn'.trans hn, hreport⟩

end Seat

/-! ### Readings -/

section Readings

variable [Host] {c : Context} {p : Seat} {key : String} {r rule m : NodeRef} {s t u : Store}
  {g : Registry}

omit [Host] in
theorem walk_constraint {eval : Evaluator} {owner : NodeRef}
    (h : (s.node r).constraints.get? key = some rule) :
    walk eval c (some r) owner [.name "constraints", .name key] s = settle eval c rule r s := by
  rw [walk, EvalM.read_bind]
  show (EvalM.ofExcept (.ok ((s.node r).constraints.get? key)) >>= _) s = _
  rw [EvalM.ofExcept_ok_bind, h]
  rfl

/-- A literal comes to the value that it holds. -/
theorem evaluate_lit (hdepth : c.depth = 0) (h : (s.node r).kind = .lit) :
    evaluate c r s = .done (s.node r).value s := by
  have hlevels : (maxDepth - c.depth).toNat = 999 + 1 := by rw [hdepth]; rfl
  rw [evaluate, hlevels, EvalM.mapFault, evaluateWithin, EvalM.read_bind, h]
  rfl

/-- The path to a constraint comes to what the constraint stands for, if that is not absent. -/
theorem resolve_constraintPath (h : (s.node c.current).constraints.get? key = some rule)
    (hvalue : (s.node rule).value.isNone = false) :
    resolveSegments evaluate c ((constraintPath key).map .name) s = c.valueOf rule s := by
  show walk evaluate c (some c.current) c.current [.name "constraints", .name key] s = _
  rw [walk_constraint h, settle, Context.valueOf, EvalM.read_bind, EvalM.read_bind]
  dsimp only [id]
  split
  · rfl
  · cases hv : (s.node rule).value with
    | none => simp [hv, Value.isNone] at hvalue
    | _ => rfl

/-- A node that goes by its value stands for what that stands for. -/
theorem valueOf_of_goesByValue (hdepth : c.depth = 0) (h : (s.node r).GoesByValue) :
    c.valueOf r s = (match (s.node r).value with
      | .node v => evaluate c v
      | v => pure v : EvalM Value) s := by
  rcases h with hkind | ⟨hkind, hvalue⟩
  · rw [Context.valueOf, EvalM.read_bind]
    exact congrFun (if_neg (by simpa using hkind)) s
  · have hlit : c.valueOf r s = .done (s.node r).value s := by
      rw [Context.valueOf, EvalM.read_bind, ← evaluate_lit hdepth hkind]
      exact congrFun (if_pos (by simp [hkind, Kind.isExpression])) s
    rw [hlit]
    cases hv : (s.node r).value with
    | node v => simp [hv, Value.asNode?] at hvalue
    | _ => rfl

/-- What validation makes of a rule that goes by its value is whether what the rule stands for counts
as true. -/
theorem Seat.constraint_eq (hg : p.registry = some g)
    (hrule : (s.node p.node).constraints.get? key = some rule)
    (hgoes : (s.node rule).GoesByValue) (hvalue : (s.node rule).value.isNone = false) :
    p.constraint key s =
      ((p.contextWith g).valueOf rule >>= fun v => EvalM.read (·.truthy v)) s := by
  show _ = ((p.contextWith g).valueOf rule s).bind _
  rw [valueOf_of_goesByValue rfl hgoes, Seat.constraint, EvalM.read_bind, id, hrule]
  cases hv : (s.node rule).value with
  | none => simp [hv, Value.isNone] at hvalue
  | node v =>
    simp only [hv, Seat.context, hg]
    rfl
  | _ =>
    simp only [hv]
    rfl

/-- The words of a message that goes by its value, or the usual ones if it holds none, are those of
what the message stands for. -/
theorem Seat.message_eq (hg : p.registry = some g)
    (hm : (s.node rule).metadata.get? "message" = some m) (hgoes : (s.node m).GoesByValue)
    (hvalue : (s.node m).value.isNone = false) :
    p.message key rule s =
      ((p.contextWith g).valueOf m >>= fun v => EvalM.check (·.valueText v)) s := by
  show _ = ((p.contextWith g).valueOf m s).bind _
  rw [valueOf_of_goesByValue rfl hgoes, Seat.message, EvalM.read_bind, id, hm]
  have hpure : ∀ v : Value, Outcome.bind (fun v => EvalM.check (·.valueText v)) (.done v s) =
      EvalM.check (·.valueText v) s := fun _ => rfl
  cases hv : (s.node m).value with
  | none => simp [hv, Value.isNone] at hvalue
  | node v =>
    simp only [hv, Seat.context, hg]
    rfl
  | _ =>
    simp only [hv]
    exact (hpure _).symm

/-- Whether the message of a rule, if there is one, goes by its value, and a node that it holds never
comes to nothing from a store on. -/
def Context.Speaks (c : Context) (s : Store) (rule : NodeRef) : Prop :=
  ∀ m, (s.node rule).metadata.get? "message" = some m → (s.node m).GoesByValue ∧
    ∀ q t u, (s.node m).value = .node q → s.Later t → evaluate c q t ≠ .done .none u

/-- The words of a message, as a computation on the store. -/
def Context.words (c : Context) (key : String) (rule : NodeRef) : EvalM String := do
  let s ← EvalM.read id
  match (s.node rule).metadata.get? "message" with
  | none => return usualMessage key
  | some m => do
    let v ← c.valueOf m
    if v.isNone then return usualMessage key else EvalM.check (·.valueText v)

/-- What is to be said of a constraint, as a computation on the store. -/
def Context.review (c : Context) (reading : EvalM Value) (key : String) (rule : NodeRef) :
    EvalM (Option String) := do
  let v ← reading
  if ← EvalM.read (·.truthy v) then return none
  else do
    let text ← c.words key rule
    return some text

theorem TreeM.Means.words {x : World σ} (key : String) (rule : NodeRef) :
    Means x (TreeM.words c key rule) (c.words key rule) := by
  refine look fun f _ => ?_
  cases (f.store.node rule).metadata.get? "message" with
  | none => exact pure _
  | some m =>
    refine (readNode c m).bind fun v => ?_
    split
    · exact pure _
    · exact check _

theorem TreeM.Means.review {x : World σ} (reading : EvalM Value) (key : String) (rule : NodeRef) :
    Means x (TreeM.review c reading key rule) (c.review reading key rule) := by
  refine (eval reading).bind fun v => (isTrue v).bind fun holds => ?_
  cases holds with
  | true => exact pure none
  | false => exact (words key rule).bind fun text => pure _

/-- What a message that goes by its value stands for is absent only if its value is. -/
theorem isNone_of_valueOf (hdepth : c.depth = 0) (hgoes : (s.node m).GoesByValue)
    (hvalue : (s.node m).value.isNone = false)
    (hnever : ∀ q u, (s.node m).value = .node q → evaluate c q s ≠ .done .none u) {v : Value}
    (h : c.valueOf m s = .done v t) : v.isNone = false := by
  rw [valueOf_of_goesByValue hdepth hgoes] at h
  cases hv : (s.node m).value with
  | none => simp [hv, Value.isNone] at hvalue
  | node q =>
    rw [hv] at h
    cases v with
    | none => exact absurd h (hnever q t hv)
    | _ => rfl
  | _ =>
    rw [hv] at h
    cases h
    rfl

/-- The message of a seat is the words of what it stands for. -/
theorem Seat.words_of_message (hg : p.registry = some g) (hspeaks : (p.contextWith g).Speaks t rule)
    (hlater : t.Later s) (hnodes : s.nodes = t.nodes) {text : String}
    (h : p.message key rule s = .done text u) :
    (p.contextWith g).words key rule s = .done text u := by
  have hnode : ∀ r, s.node r = t.node r := Store.node_eq_of_nodes hnodes
  rw [Context.words, EvalM.read_bind, id]
  cases hm : (s.node rule).metadata.get? "message" with
  | none =>
    rw [Seat.message, EvalM.read_bind, id, hm] at h
    exact h
  | some m =>
    obtain ⟨hgoes, hnever⟩ := hspeaks m (by rwa [← hnode])
    rw [← hnode] at hgoes hnever
    cases hvalue : (s.node m).value.isNone with
    | true =>
      have hnone : (s.node m).value = .none := by
        cases hv : (s.node m).value <;> simp [hv, Value.isNone] at hvalue ⊢
      have hread : (p.contextWith g).valueOf m s = .done .none s := by
        rw [valueOf_of_goesByValue rfl hgoes, hnone]
        rfl
      rw [Seat.message, EvalM.read_bind, id, hm] at h
      simp only [hnone] at h
      exact (EvalM.bind_of_done hread _).trans h
    | false =>
      rw [message_eq hg hm hgoes hvalue] at h
      obtain ⟨v, s', hread, htext⟩ := EvalM.bind_eq_done h
      have hv := isNone_of_valueOf rfl hgoes hvalue (fun q u hq => hnever q s u hq hlater) hread
      refine (EvalM.bind_of_done hread _).trans (Eq.trans ?_ htext)
      rw [hv]
      rfl

/-- What a seat reports is what a review says. -/
theorem Seat.review_of_report (hp : p.Standard) (hg : p.registry = some g)
    (hrule : (s.node p.node).constraints.get? key = some rule)
    (hgoes : (s.node rule).GoesByValue) (hvalue : (s.node rule).value.isNone = false)
    (hspeaks : (p.contextWith g).Speaks s rule) {said : Option String}
    (h : p.report key rule s = .done said u) :
    (p.contextWith g).review (resolveSegments evaluate (p.contextWith g)
      ((constraintPath key).map .name)) key rule s = .done said u := by
  obtain ⟨holds, t₁, hholds, h⟩ := EvalM.bind_eq_done h
  rw [Seat.constraint_eq hg hrule hgoes hvalue] at hholds
  obtain ⟨v, t, hread, htrue⟩ := EvalM.bind_eq_done hholds
  obtain ⟨hlater, hnodes⟩ :=
    (Seat.Standard.valueOf (c := p.contextWith g) (hp g hg) rule).done hread
  rw [← resolve_constraintPath (c := p.contextWith g) hrule hvalue] at hread
  refine (EvalM.bind_of_done hread _).trans ?_
  obtain ⟨rfl, rfl⟩ : holds = t.truthy v ∧ t₁ = t := by
    cases htrue
    exact ⟨rfl, rfl⟩
  refine (EvalM.read_bind _ _ _).trans ?_
  cases htruthy : t₁.truthy v with
  | true =>
    rw [htruthy] at h
    exact h
  | false =>
    rw [htruthy] at h
    obtain ⟨text, t', hmessage, h⟩ := EvalM.bind_eq_done h
    exact (EvalM.bind_of_done (words_of_message hg hspeaks hlater hnodes hmessage) _).trans h

end Readings

/-! ### Validation -/

section Validation

variable [Host] {x y : World σ} {w : WrapperRef} {c : Context} {key : String} {rule : NodeRef}
  {found : Failures} {s t u : Store} {g : Registry}

/-- A reference to a constraint comes to what the constraint stands for, unless it runs out of
levels. -/
theorem TreeM.eval_constraint_ref (hc : c.registry.IsStandard)
    (hrule : (x.forest.store.node c.current).constraints.get? key = some rule)
    (hvalue : (x.forest.store.node rule).value.isNone = false) {v : Value}
    (hread : c.valueOf rule x.forest.store = .done v s) {e : NodeRef}
    (he : x.forest.store.IsRef e (constraintPath key))
    (hleft : ¬ TreeM.RunsOut (TreeM.eval (evaluate c e)) x) :
    TreeM.eval (evaluate c e) x = .ok v (x.withStore s) := by
  obtain ⟨n, hn⟩ := evaluate_ref he hleft
  have hpath : resolvePath (evaluateWithin n) c.deeper (x.forest.store.node e).value
      x.forest.store = settle (evaluateWithin n) c.deeper rule c.current x.forest.store :=
    (resolvePath_self he.2).trans (walk_constraint hrule)
  have hsettle : TreeM.eval (evaluate c e) x = TreeM.eval ((settle (evaluateWithin n) c.deeper rule
      c.current).mapFault Fault.orTooDeep) x :=
    eval_congr (hn.trans (congrArg (Outcome.mapFault Fault.orTooDeep) hpath))
  have hagree : (c.deeper.focus c.current).Agrees x.forest.store.nodes c :=
    (Context.agrees_withDepth hc x.forest.store.nodes (c.depth + 1)).symm
  have hright : TreeM.readNode c rule x = .ok v (x.withStore s) :=
    (TreeM.Means.readNode (x := x) c rule x.forest.store).trans (TreeM.eval_done hread)
  rw [TreeM.RunsOut, hsettle] at hleft
  rw [hsettle, settle_eq_readNode hagree (.inr hvalue) hleft (not_runsOut ⟨_, hright⟩)]
  exact hright

/-- Where the path to a constraint can be read, so can any reference with this path, and it reads the
same. -/
theorem World.reviews_of_path (hc : c.registry.IsStandard)
    (hrule : (x.forest.store.node c.current).constraints.get? key = some rule)
    (hvalue : (x.forest.store.node rule).value.isNone = false) {said : Option String}
    (h : c.review (resolveSegments evaluate c ((constraintPath key).map .name)) key rule
      x.forest.store = .done said u) : x.Reviews c key rule said := by
  have hpath : TreeM.review c (resolveSegments evaluate c ((constraintPath key).map .name)) key rule
      x = .ok said (x.withStore u) :=
    (TreeM.Means.review (x := x) _ key rule x.forest.store).trans (TreeM.eval_done h)
  refine ⟨⟨_, hpath⟩, fun e said' z he href => ?_⟩
  obtain ⟨v, s, hread, -⟩ := EvalM.bind_eq_done h
  have hleft : ¬ TreeM.RunsOut (TreeM.eval (evaluate c e)) x := by
    rintro ⟨z', hz⟩
    rw [TreeM.review, bind_of_error hz] at href
    cases href
  have hsame := TreeM.eval_constraint_ref hc hrule hvalue
    ((resolve_constraintPath hrule hvalue).symm.trans hread) he hleft
  rw [TreeM.review, bind_of_ok (TreeM.eval_done hread)] at hpath
  rw [TreeM.review, bind_of_ok hsame, hpath] at href
  cases href
  rfl

/-- What a seat reports of a constraint on corresponding stores is the same. -/
theorem Seat.Known.report {C : Correspondence} (hC : C.Lawful) {p : Seat} (hp : p.Known C s)
    (key : String) (hrule : C.Knows s rule) :
    C.Tracks s (fun _ a b => b = a) (p.report key rule) (p.report key rule) := by
  refine (hp.constraint hC key).bind ?_
  rintro s' _ holds hs rfl
  cases holds with
  | true => exact .pure fun _ _ => rfl
  | false =>
    refine ((hp.later hC hs).message hC key (hrule.later hC hs)).bind ?_
    rintro _ _ text - rfl
    exact .pure fun _ _ => rfl

/-- Validation reports a constraint if and only if the constraint, read by a reference to it, counts
as false, and it does so in the words of the constraint's message, read as metadata are, or in the
usual words if there is no message or it reads as absent: so it is at the moment when validation
comes to the constraint, and if nothing that the wrapper and its ancestors stand for has cycles, at
every later moment too. This is so for rules and messages that go by their value, as long as no node
that a message holds comes to nothing. -/
theorem validate_reports (hc : TreeM.context w w x = .ok c x) (hg : c.registry.IsStandard)
    (hrun : TreeM.validate w x = .ok found y)
    (hrule : (x.forest.nodeAt w).constraints.get? key = some rule)
    (hgoes : (x.forest.store.node rule).GoesByValue)
    (hvalue : (x.forest.store.node rule).value.isNone = false)
    (hspeaks : c.Speaks x.forest.store rule) :
    (∃ t, x.forest.store.Later t ∧ t.nodes = x.forest.store.nodes ∧
      (x.withStore t).Reviews c key rule (found.get? key)) ∧
    (x.forest.Ordered → x.forest.store.WellFormed →
      (∀ a ∈ w :: x.forest.ancestors w,
        x.forest.store.Grounded (.node (x.forest.wrapper a).node)) →
      ∀ t, x.forest.store.Later t → (x.withStore t).Reviews c key rule (found.get? key)) := by
  obtain ⟨g, hregistry, rfl⟩ := TreeM.Means.context_eq_ok hc
  have hp : (x.forest.seat w).Standard := fun g' hg' => by
    obtain rfl := Option.some.inj (hregistry.symm.trans hg')
    exact hg
  have hlive := TreeM.Means.live_of_checkAlive hrun
  obtain ⟨u, hfailures, -⟩ := hp.failures.done_of_eval
    ((TreeM.Means.validate hlive x.forest.store).symm.trans hrun)
  obtain ⟨t, v, ht, hnodes, hreport⟩ := Seat.checkAll_reports hp (x.forest.nodeAt w).constraints.nodup
    (Entries.get?_eq_some_iff.mp hrule) rfl hfailures
  have hreview : ∀ t v, x.forest.store.Later t →
      t.node (x.forest.wrapper w).node = x.forest.nodeAt w →
      t.node rule = x.forest.store.node rule →
      (∀ m, (x.forest.store.node rule).metadata.get? "message" = some m →
        t.node m = x.forest.store.node m) →
      (x.forest.seat w).report key rule t = .done (found.get? key) v →
      (x.withStore t).Reviews ((x.forest.seat w).contextWith g) key rule (found.get? key) := by
    intro t v ht hown hnode hwords hreport
    have hrule' : (t.node (x.forest.wrapper w).node).constraints.get? key = some rule := by
      rwa [hown]
    rw [← hnode] at hgoes hvalue hwords
    refine World.reviews_of_path hg hrule' hvalue
      (Seat.review_of_report hp hregistry hrule' hgoes hvalue (fun m hm => ?_) hreport)
    obtain ⟨hgoes', hnever⟩ := hspeaks m (hnode ▸ hm)
    rw [← hwords m hm] at hgoes' hnever
    exact ⟨hgoes', fun q t' u hq ht' => hnever q t' u hq (ht.trans ht')⟩
  have hsame : ∀ r, t.node r = x.forest.store.node r := Store.node_eq_of_nodes hnodes
  refine ⟨⟨t, ht, hnodes, hreview t v ht (hsame _) (hsame _) (fun m _ => hsame m) hreport⟩, ?_⟩
  intro ho hs hgrounded t' ht'
  have hown := hgrounded w List.mem_cons_self
  have hrule' : x.forest.store.Grounded (.node rule) := hown.links hs _
    (Store.parts_subset_links _ (Node.entry_mem_parts _ .constraints (Entries.mem_values_of_get? hrule)))
  obtain ⟨v', hreport'⟩ := EvalM.done_later hs (fun u hu => ((Forest.seat_grounded ho hgrounded
    hp).toKnown u).report (shifted_fit hs hu).toLawful key (hrule'.knows u _)) ht hreport ht'
  refine hreview t' v' ht' (ht'.node hown.has) (ht'.node hrule'.has) (fun m hm => ht'.node ?_) hreport'
  exact (hrule'.links hs _ (Store.parts_subset_links _
    (Node.entry_mem_parts _ .metadata (Entries.mem_values_of_get? hm)))).has

end Validation

/-- An invoice with an amount, which has the constraint that it is not zero, in words that an
expression gives. -/
def Store.invoice : Store :=
  let s := (Store.initial.allocList (["self", "value"].map .str)).2
  let s := (s.allocNode { Builtin.node "ref" Builtin.ref .ref with value := .list ⟨0⟩ }).2
  let s := (s.allocNode { Builtin.node "lit" Builtin.lit .lit with value := .str "Nothing yet" }).2
  let s := (s.allocNode { Builtin.node "message" Builtin.property .plain with
    value := .node ⟨9⟩ }).2
  let s := (s.allocNode { Builtin.node "some" Builtin.constraint .constraint with
    value := .node ⟨8⟩, metadata := .ofList [("message", ⟨10⟩)] }).2
  let s := (s.allocNode { Builtin.node "amount" Builtin.property .plain with
    value := .int 0, constraints := .ofList [("some", ⟨11⟩)] }).2
  (s.allocNode { Builtin.node "invoice" Builtin.property .plain with
    children := .ofList [("amount", ⟨12⟩)] }).2

theorem Store.invoice_wellFormed : invoice.WellFormed :=
  initial_wellFormed.allocList (by decide)
    |>.allocNode (by decide) rfl (by decide)
    |>.allocNode (by decide) rfl (by decide)
    |>.allocNode (by decide) rfl (by decide)
    |>.allocNode (by decide) rfl (by decide)
    |>.allocNode (by decide) rfl (by decide)
    |>.allocNode (by decide) rfl (by decide)

theorem Store.invoice_grounded {r : NodeRef} (hr : invoice.Has (.node r)) :
    invoice.Grounded (.node r) := by
  refine ⟨hr, fun u hu => ?_⟩
  have hnodes : ∀ i < 14, EndsWithin invoice.parts 7 (.node ⟨i⟩) := by decide
  have hlists : ∀ i < 1, EndsWithin invoice.parts 7 (.list ⟨i⟩) := by decide
  have hhas : invoice.Has u := hu.closed (P := invoice.Has) hr
    fun x _ hx => invoice_wellFormed.has_links x hx
  cases u with
  | node r => exact (hnodes r.index hhas).acyclic
  | list r => exact (hlists r.index hhas).acyclic
  | tuple r => exact absurd hhas (Nat.not_lt_zero _)
  | dict r => exact absurd hhas (Nat.not_lt_zero _)
  | _ => exact EndsWithin.acyclic (n := 1) fun p hp => absurd hp List.not_mem_nil

/-- A node of the invoice under a wrapper with the standard operators. -/
def invoiceWorld (r : NodeRef) : World Unit where
  forest := ((Forest.mk .invoice #[]).allocWrapper (.ofNode r (some .standard))).2
  user := ()

theorem invoiceWorld_arises (r : NodeRef) : (invoiceWorld r).forest.Arises false :=
  (Forest.Arises.start .invoice).wrap r _

theorem amount_reports : ∃ c y, @TreeM.validate Unit Host.none ⟨0⟩ (invoiceWorld ⟨12⟩) =
      .ok (.ofList [("some", "Nothing yet")]) y ∧
    @World.Reviews Unit Host.none (invoiceWorld ⟨12⟩) c "some" ⟨11⟩ (some "Nothing yet") := by
  let host := Host.none
  let x := invoiceWorld ⟨12⟩
  obtain ⟨y, hrun⟩ : ∃ y, TreeM.validate ⟨0⟩ x = .ok (.ofList [("some", "Nothing yet")]) y :=
    ⟨_, rfl⟩
  have hspeaks : ((x.forest.seat ⟨0⟩).contextWith .standard).Speaks .invoice ⟨11⟩ := by
    rintro m hm
    cases hm
    refine ⟨.inl rfl, ?_⟩
    rintro q t u hq ht
    cases hq
    have hnode : t.node ⟨9⟩ = Store.invoice.node ⟨9⟩ := ht.node (by decide)
    rw [evaluate_lit rfl (by rw [hnode]; rfl), hnode]
    rintro ⟨⟩
  have hgrounded : ∀ a ∈ (⟨0⟩ : WrapperRef) :: x.forest.ancestors ⟨0⟩,
      Store.invoice.Grounded (.node (x.forest.wrapper a).node) := by
    intro a ha
    obtain rfl := List.mem_singleton.mp ha
    exact Store.invoice_grounded (by decide)
  have hrule : (x.forest.nodeAt ⟨0⟩).constraints.get? "some" = some ⟨11⟩ := rfl
  obtain ⟨-, h⟩ := validate_reports (x := x) (w := ⟨0⟩) rfl Registry.get?_standard hrun
    hrule (.inl rfl) rfl hspeaks
  exact ⟨_, y, hrun, h (invoiceWorld_arises ⟨12⟩).kept.toOrdered Store.invoice_wellFormed hgrounded _
    (.refl _)⟩

end LiveTree
