import LiveTree.Form.Same
import LiveTree.Proofs.Keeping
import LiveTree.Proofs.Tree.Below

/-! References from the root of a tree, and reads at the wrappers in it. The path of a reference and
the wrapper come to the same node, which both take for the owner of what is evaluated there, so a
reference to a metadata entry or to a value gives what the wrapper reads. The one exception is the
value of an operator call that has no value stored. -/

namespace LiveTree

/-- The path of a reference from the root down along children. -/
def treePath (keys : Path) : Path := "root" :: keys.flatMap fun key => ["children", key]

/-- Whether a node is a reference along a path. -/
def Store.IsRef (s : Store) (e : NodeRef) (path : Path) : Prop :=
  (s.node e).kind = .ref ∧ s.sequence? (s.node e).value = some (path.map .str)

variable {σ : Type} {eval : Evaluator} {c c' : Context} {s : Store} {e q r : NodeRef}

theorem Store.segments_of_sequence {v : Value} {path : Path}
    (h : s.sequence? v = some (path.map .str)) : s.segments v = .ok (path.map .name) := by
  have hsegment : (path.map Value.str).map s.segment = path.map .name := by
    rw [List.map_map]
    rfl
  unfold segments
  cases path with
  | nil => cases v <;> simp_all [sequence?, truthy]
  | cons key rest =>
    cases v <;> simp_all [sequence?, truthy]

/-! ### Walking down -/

theorem walk_child {owner : NodeRef} {key : String} {rest : List Segment}
    (h : (s.node r).children.get? key = some q) :
    walk eval c (some r) owner (.name "children" :: .name key :: rest) s =
      walk eval c (some q) q rest s := by
  rw [walk, EvalM.read_bind]
  show (EvalM.ofExcept (.ok ((s.node r).children.get? key)) >>= _) s = _
  rw [EvalM.ofExcept_ok_bind, h]
  rfl

theorem walk_metadata {owner : NodeRef} {key : String}
    (h : (s.node r).metadata.get? key = some q) :
    walk eval c (some r) owner [.name "metadata", .name key] s = settle eval c q r s := by
  rw [walk, EvalM.read_bind]
  show (EvalM.ofExcept (.ok ((s.node r).metadata.get? key)) >>= _) s = _
  rw [EvalM.ofExcept_ok_bind, h]
  rfl

theorem walk_value {owner : NodeRef} :
    walk eval c (some r) owner [.name "value"] s = ownValue eval c r owner s := by
  rw [walk]
  rfl

/-- The segment `value` ends a path like its end does, unless there is no value. -/
theorem ownValue_eq_settle {owner : NodeRef} (h : (s.node q).value.isNone = false) :
    ownValue eval c q owner s = settle eval c q owner s := by
  rw [ownValue, settle, EvalM.read_bind, EvalM.read_bind]
  cases hvalue : (s.node q).value <;> first | rfl | simp [hvalue, Value.isNone] at h

theorem ownValue_of_isNone {owner : NodeRef} (h : (s.node q).value.isNone = true) :
    ownValue eval c q owner s = .done .none s := by
  rw [ownValue, EvalM.read_bind]
  cases hvalue : (s.node q).value <;> first | rfl | simp [hvalue, Value.isNone] at h

/-- A path down the children comes to the wrapper that stands there, which is its own owner. -/
theorem Forest.Below.walk_eq {f : Forest} {root w : WrapperRef} {keys : Path}
    (h : f.Below root keys w) (rest : List Segment) :
    walk eval c (some (f.wrapper root).node) (f.wrapper root).node
        ((keys.flatMap fun key => ["children", key]).map .name ++ rest) f.store =
      walk eval c (some (f.wrapper w).node) (f.wrapper w).node rest f.store := by
  induction h generalizing rest with
  | root => rfl
  | @child path key p w _ _ hnode ih =>
    have hstep := ih (.name "children" :: .name key :: rest)
    rw [List.flatMap_append, List.map_append, List.append_assoc]
    exact hstep.trans (walk_child hnode)

/-- A reference from the root down to a wrapper and further is the rest of the path from there. -/
theorem resolvePath_treePath {f : Forest} {root w : WrapperRef} {keys : Path}
    (h : f.Below root keys w) {rest : Path} {v : Value} (hroot : c.root = (f.wrapper root).node)
    (hv : f.store.sequence? v = some ((treePath keys ++ rest).map .str)) :
    resolvePath eval c v f.store =
      walk eval c (some (f.wrapper w).node) (f.wrapper w).node (rest.map .name) f.store := by
  rw [resolvePath, EvalM.check_bind (Store.segments_of_sequence hv), ← h.walk_eq, ← hroot,
    ← List.map_append]
  rfl

theorem resolvePath_self {path : Path} {v : Value}
    (hv : s.sequence? v = some (("self" :: path).map .str)) :
    resolvePath eval c v s = walk eval c (some c.current) c.current (path.map .name) s := by
  rw [resolvePath, EvalM.check_bind (Store.segments_of_sequence hv)]
  rfl

/-! ### Reading at a node -/

section Reading

variable {x : World σ} {owner : NodeRef} {n : ℕ}

/-- Whether an operation runs out of levels of evaluation. -/
def TreeM.RunsOut {α : Type} (m : TreeM σ α) (x : World σ) : Prop := ∃ y, m x = .error .tooDeep y

theorem eval_congr {α : Type} {m m' : EvalM α} (h : m x.forest.store = m' x.forest.store) :
    TreeM.eval m x = TreeM.eval m' x := by
  rw [TreeM.eval, EvalM.run, h]
  rfl

theorem runsOut_of_tooDeep {α : Type} {m : EvalM α} (rest : Aftermath)
    (h : m x.forest.store = .failed .tooDeep rest) : TreeM.RunsOut (TreeM.eval m) x := by
  refine ⟨{ x with forest := { x.forest with store := rest.step.store } }, ?_⟩
  rw [TreeM.eval, EvalM.run, h]
  rfl

theorem not_runsOut {α : Type} {m : TreeM σ α} {a : α} (h : ∃ y, m x = .ok a y) :
    ¬ TreeM.RunsOut m x := by
  rintro ⟨y', h'⟩
  obtain ⟨y, h⟩ := h
  rw [h] at h'
  cases h'

variable [Host]

/-- A reference gives what its path comes to with the levels that are left. -/
theorem evaluate_ref {path : Path} (he : x.forest.store.IsRef e path)
    (hleft : ¬ TreeM.RunsOut (TreeM.eval (evaluate c e)) x) :
    ∃ n, evaluate c e x.forest.store =
      (resolvePath (evaluateWithin n) c.deeper (x.forest.store.node e).value
        x.forest.store).mapFault Fault.orTooDeep := by
  cases hn : (maxDepth - c.depth).toNat with
  | zero =>
    refine absurd (runsOut_of_tooDeep (.ended x.forest.store) ?_) hleft
    rw [evaluate, hn]
    rfl
  | succ n =>
    refine ⟨n, ?_⟩
    rw [evaluate, hn, evaluateWithin, EvalM.mapFault, EvalM.read_bind, he.1]

/-- Evaluations in contexts that agree come to the same, unless one runs out of levels. -/
theorem eval_within_eq (hc : c.Agrees x.forest.store.nodes c') (q : NodeRef)
    (hl : ¬ TreeM.RunsOut (TreeM.eval ((evaluateWithin n c q).mapFault Fault.orTooDeep)) x)
    (hr : ¬ TreeM.RunsOut (TreeM.eval (evaluate c' q)) x) :
    TreeM.eval ((evaluateWithin n c q).mapFault Fault.orTooDeep) x =
      TreeM.eval (evaluate c' q) x := by
  refine eval_congr ?_
  rw [evaluate, EvalM.mapFault, EvalM.mapFault]
  rw [evaluateWithin_eq hc q (fun rest h => hl ?_) fun rest h => hr ?_]
  · exact runsOut_of_tooDeep rest (by rw [EvalM.mapFault, h]; rfl)
  · exact runsOut_of_tooDeep rest (by rw [evaluate, EvalM.mapFault, h]; rfl)

theorem readNode_of_isExpression (h : (x.forest.store.node q).kind.isExpression = true) :
    TreeM.readNode c q x = TreeM.eval (evaluate c q) x := by
  rw [TreeM.readNode, TreeM.forest_bind]
  exact congrFun (if_pos h) x

theorem readNode_of_value (h : (x.forest.store.node q).kind.isExpression = false) :
    TreeM.readNode c q x = (match (x.forest.store.node q).value with
      | .node v => TreeM.eval (evaluate c v)
      | v => pure v : TreeM σ Value) x := by
  rw [TreeM.readNode, TreeM.forest_bind]
  exact congrFun (if_neg (by simp [h])) x

/-- What a path comes to that ends at an expression, or at a node with a value, is what is read
there for the owner. -/
theorem settle_eq_readNode (hc : (c.focus owner).Agrees x.forest.store.nodes c')
    (hq : (x.forest.store.node q).kind.isExpression = true ∨
      (x.forest.store.node q).value.isNone = false)
    (hl : ¬ TreeM.RunsOut (TreeM.eval ((settle (evaluateWithin n) c q owner).mapFault
      Fault.orTooDeep)) x)
    (hr : ¬ TreeM.RunsOut (TreeM.readNode c' q) x) :
    TreeM.eval ((settle (evaluateWithin n) c q owner).mapFault Fault.orTooDeep) x =
      TreeM.readNode c' q x := by
  have hsettle : ∀ m : EvalM Value, settle (evaluateWithin n) c q owner x.forest.store =
      m x.forest.store → TreeM.eval ((settle (evaluateWithin n) c q owner).mapFault
        Fault.orTooDeep) x = TreeM.eval (m.mapFault Fault.orTooDeep) x := fun m h =>
    eval_congr (congrArg (Outcome.mapFault Fault.orTooDeep) h)
  cases hkind : (x.forest.store.node q).kind.isExpression with
  | true =>
    have h := hsettle (evaluateWithin n (c.focus owner) q) (by
      rw [settle, EvalM.read_bind, hkind, if_pos rfl])
    rw [TreeM.RunsOut, h] at hl
    rw [TreeM.RunsOut, readNode_of_isExpression hkind] at hr
    rw [h, readNode_of_isExpression hkind]
    exact eval_within_eq hc q hl hr
  | false =>
    rw [TreeM.RunsOut, readNode_of_value hkind] at hr
    rw [readNode_of_value hkind]
    cases hvalue : (x.forest.store.node q).value with
    | none => simp [hkind, hvalue, Value.isNone] at hq
    | node v =>
      have h := hsettle (evaluateWithin n (c.focus owner) v) (by
        rw [settle, EvalM.read_bind, hkind, if_neg Bool.false_ne_true, hvalue])
      rw [TreeM.RunsOut, h] at hl
      rw [hvalue] at hr
      rw [h]
      exact eval_within_eq hc v hl hr
    | _ =>
      refine (hsettle (pure _) ?_).trans rfl
      rw [settle, EvalM.read_bind, hkind, if_neg Bool.false_ne_true, hvalue]

/-- Where there is no value, reading gives none, unless an operator is applied. -/
theorem readNode_of_isNone (hvalue : (x.forest.store.node q).value.isNone = true)
    (hkind : (x.forest.store.node q).kind ≠ .op) (hr : ¬ TreeM.RunsOut (TreeM.readNode c q) x) :
    TreeM.readNode c q x = .ok .none x := by
  have hnone : (x.forest.store.node q).value = .none := by
    cases h : (x.forest.store.node q).value <;> simp [h, Value.isNone] at hvalue ⊢
  cases hexpr : (x.forest.store.node q).kind.isExpression with
  | false =>
    rw [readNode_of_value hexpr, hnone]
    rfl
  | true =>
    rw [TreeM.RunsOut, readNode_of_isExpression hexpr] at hr
    rw [readNode_of_isExpression hexpr]
    cases hn : (maxDepth - c.depth).toNat with
    | zero =>
      refine absurd (runsOut_of_tooDeep (.ended x.forest.store) ?_) hr
      rw [evaluate, hn]
      rfl
    | succ n =>
      have hdone : evaluate c q x.forest.store = (pure .none : EvalM Value) x.forest.store := by
        rw [evaluate, hn, evaluateWithin, EvalM.mapFault, EvalM.read_bind, hnone]
        cases hk : (x.forest.store.node q).kind with
        | op => exact absurd hk hkind
        | ref => rfl
        | _ => rfl
      exact (eval_congr hdone).trans rfl

end Reading

/-! ### References and reads -/

section

variable [Host] {x : World σ} {root w : WrapperRef} {g : Registry} {keys : Path}

theorem getMetadata_eq (ho : x.forest.Ordered) (ht : x.forest.StandardTree root g)
    (hw : x.forest.Below root keys w) (hlive : (x.forest.wrapper w).destroyed = false) {m : String}
    (hm : (x.forest.nodeAt w).metadata.get? m = some q) :
    TreeM.getMetadata w m x = TreeM.readNode (x.forest.contextAt root w g) q x := by
  rw [TreeM.getMetadata, bind_of_ok (TreeM.checkAlive_of_live hlive), TreeM.forest_bind, hm]
  exact bind_of_ok (TreeM.context_eq ho ht hw) _

theorem getValue_eq (ho : x.forest.Ordered) (ht : x.forest.StandardTree root g)
    (hw : x.forest.Below root keys w) (hlive : (x.forest.wrapper w).destroyed = false) :
    TreeM.getValue w [] x =
      TreeM.readNode (x.forest.contextAt root w g) (x.forest.wrapper w).node x := by
  rw [TreeM.getValue, bind_of_ok (TreeM.checkAlive_of_live hlive)]
  exact bind_of_ok (TreeM.context_eq ho ht hw) _

/-- A reference from the root to a metadata entry that is an expression or has a value gives what
the wrapper whose node has the entry reads there, wherever in the tree the evaluation starts: the
entry is evaluated for that node, and not for the entry or for the node that has the reference. -/
theorem eval_metadata_ref (ho : x.forest.Ordered) (ht : x.forest.StandardTree root g)
    (hw : x.forest.Below root keys w) (hlive : (x.forest.wrapper w).destroyed = false) {m : String}
    (hm : (x.forest.nodeAt w).metadata.get? m = some q)
    (hq : (x.forest.store.node q).kind.isExpression = true ∨
      (x.forest.store.node q).value.isNone = false)
    (he : x.forest.store.IsRef e (treePath keys ++ ["metadata", m]))
    (hc : x.forest.Starts root g c) (hleft : ¬ TreeM.RunsOut (TreeM.eval (evaluate c e)) x)
    (hright : ¬ TreeM.RunsOut (TreeM.getMetadata w m) x) :
    TreeM.eval (evaluate c e) x = TreeM.getMetadata w m x := by
  obtain ⟨n, hn⟩ := evaluate_ref he hleft
  have hpath :
      resolvePath (evaluateWithin n) c.deeper (x.forest.store.node e).value x.forest.store =
        settle (evaluateWithin n) c.deeper q (x.forest.wrapper w).node x.forest.store :=
    (resolvePath_treePath hw hc.deeper.root he.2).trans (walk_metadata hm)
  -- at the end of the path the entry is evaluated for the node that has it, as by the wrapper
  have hagree := (hc.deeper.focus (x.forest.wrapper w).node).agrees ht (hw.starts (g := g)) rfl
  have hread : TreeM.eval (evaluate c e) x = TreeM.eval ((settle (evaluateWithin n) c.deeper q
      (x.forest.wrapper w).node).mapFault Fault.orTooDeep) x :=
    eval_congr (hn.trans (congrArg (Outcome.mapFault Fault.orTooDeep) hpath))
  rw [TreeM.RunsOut, hread] at hleft
  rw [TreeM.RunsOut, getMetadata_eq ho ht hw hlive hm] at hright
  rw [hread, getMetadata_eq ho ht hw hlive hm]
  exact settle_eq_readNode hagree hq hleft hright

end

/-- A host program without operators. -/
@[reducible] def Host.none : Host := ⟨fun name _ _ _ => .fail (.unknownOperator name)⟩

/-- A root over a sum and a field, with an alias of the field's value in its metadata and
references to the alias and to the sum. -/
def tally : World Unit where
  forest :=
    { store :=
        let n (id : String) (type : NodeRef) (kind : Kind) (v : Value) : Node :=
          { Builtin.node id type kind with value := v }
        { Store.initial with
          nodes := Store.initial.nodes ++ #[
            n "lit" Builtin.lit .lit (.int 1), n "lit" Builtin.lit .lit (.int 2),
            { n "add" Builtin.op .op .none with
              children := .ofList [("arg0", ⟨8⟩), ("arg1", ⟨9⟩)] },
            n "ref" Builtin.ref .ref (.list ⟨0⟩),
            { n "field" Builtin.property .plain (.int 5) with
              metadata := .ofList [("alias", ⟨11⟩)] },
            n "ref" Builtin.ref .ref (.list ⟨1⟩), n "ref" Builtin.ref .ref (.list ⟨2⟩),
            { n "root" Builtin.property .plain .none with
              children := .ofList
                [("total", ⟨10⟩), ("field", ⟨12⟩), ("seen", ⟨13⟩), ("sum", ⟨14⟩)] }]
          argOrders := (Array.replicate 16 none).set! 10 (some ["arg0", "arg1"])
          lists := #[["self", "value"].map .str,
            (treePath ["field"] ++ ["metadata", "alias"]).map .str,
            (treePath ["total"] ++ ["value"]).map .str] }
      wrappers := #[
        { Wrapper.ofNode ⟨15⟩ (some .standard) with
          cache := .ofList [("total", ⟨1⟩), ("field", ⟨2⟩)] },
        { Wrapper.ofNode ⟨10⟩ none with parent := some ⟨0⟩, key := some "total" },
        { Wrapper.ofNode ⟨12⟩ none with parent := some ⟨0⟩, key := some "field" }] }
  user := ()

theorem tally_wrapper (w : WrapperRef) : w = ⟨0⟩ ∨ w = ⟨1⟩ ∨ w = ⟨2⟩ ∨
    tally.forest.wrapper w = default := by
  obtain ⟨_ | _ | _ | i⟩ := w
  · exact .inl rfl
  · exact .inr (.inl rfl)
  · exact .inr (.inr (.inl rfl))
  · exact .inr (.inr (.inr rfl))

theorem tally_ordered : tally.forest.Ordered where
  parent_lt w p hp := by
    rcases tally_wrapper w with rfl | rfl | rfl | e
    · cases hp
    · cases hp; decide
    · cases hp; decide
    · rw [e] at hp; cases hp
  cached_lt w := by
    rcases tally_wrapper w with rfl | rfl | rfl | e
    · decide
    · decide
    · decide
    · rw [e]; decide

theorem tally_standardTree : tally.forest.StandardTree ⟨0⟩ .standard where
  parent := rfl
  acyclic := (by decide : EndsWithin tally.forest.store.held 3 ⟨15⟩).acyclic
  singly p q r _ _ hp hq := by
    have hall : ∀ i < 16, ∀ j < 16, ∀ r ∈ tally.forest.store.held ⟨i⟩,
        r ∈ tally.forest.store.held ⟨j⟩ → i = j := by decide
    have hlt : ∀ p : NodeRef, r ∈ tally.forest.store.held p → p.index < 16 := by
      intro p hp
      by_contra hnot
      have hnode := tally.forest.store.node_of_not_has (r := p) hnot
      rw [Store.held, hnode] at hp
      cases hp
    exact congrArg NodeRef.mk (hall p.index (hlt p hp) q.index (hlt q hq) r hp hq)
  registry := rfl
  only path w _ := by
    rcases tally_wrapper w with rfl | rfl | rfl | e
    · exact .inr rfl
    · exact .inl rfl
    · exact .inl rfl
    · rw [e]
      exact .inl rfl
  standard := Registry.get?_standard

theorem tally_below_total : tally.forest.Below ⟨0⟩ ["total"] ⟨1⟩ := .child .root rfl rfl

theorem tally_below_field : tally.forest.Below ⟨0⟩ ["field"] ⟨2⟩ := .child .root rfl rfl

theorem tally_alias_ref :
    TreeM.eval (@evaluate Host.none (tally.forest.contextAt ⟨0⟩ ⟨1⟩ .standard) ⟨13⟩) tally =
      @TreeM.getMetadata Unit Host.none ⟨2⟩ "alias" tally :=
  @eval_metadata_ref _ _ _ _ Host.none _ _ _ _ _ tally_ordered tally_standardTree
    tally_below_field rfl _ rfl (.inl rfl) ⟨rfl, rfl⟩ tally_below_total.starts
    (not_runsOut (a := .int 5) ⟨_, rfl⟩) (not_runsOut (a := .int 5) ⟨_, rfl⟩)

section

variable [Host] {x : World σ} {root w : WrapperRef} {g : Registry} {keys : Path}

/-- A reference from the root to the value of a node, or along `self.value` from the node itself,
gives what the wrapper of the node reads as its value, wherever in the tree the evaluation starts.
An operator call that has no value stored is the one exception: the wrapper applies the operator,
and the reference is absent. -/
theorem eval_value_ref (ho : x.forest.Ordered) (ht : x.forest.StandardTree root g)
    (hw : x.forest.Below root keys w) (hlive : (x.forest.wrapper w).destroyed = false)
    (hc : x.forest.Starts root g c)
    (he : x.forest.store.IsRef e (treePath keys ++ ["value"]) ∨
      x.forest.store.IsRef e ["self", "value"] ∧ c.current = (x.forest.wrapper w).node)
    (hleft : ¬ TreeM.RunsOut (TreeM.eval (evaluate c e)) x)
    (hright : ¬ TreeM.RunsOut (TreeM.getValue w []) x) :
    TreeM.eval (evaluate c e) x =
      if (x.forest.nodeAt w).kind = .op ∧ (x.forest.nodeAt w).value.isNone = true then .ok .none x
      else TreeM.getValue w [] x := by
  obtain ⟨n, hn⟩ : ∃ n, evaluate c e x.forest.store = (ownValue (evaluateWithin n) c.deeper
      (x.forest.wrapper w).node (x.forest.wrapper w).node x.forest.store).mapFault
        Fault.orTooDeep := by
    rcases he with he | ⟨he, hself⟩
    · obtain ⟨n, hn⟩ := evaluate_ref he hleft
      refine ⟨n, hn.trans (congrArg (Outcome.mapFault Fault.orTooDeep) ?_)⟩
      exact (resolvePath_treePath hw hc.deeper.root he.2).trans walk_value
    · obtain ⟨n, hn⟩ := evaluate_ref he hleft
      refine ⟨n, hn.trans (congrArg (Outcome.mapFault Fault.orTooDeep) ?_)⟩
      rw [← hself]
      exact (resolvePath_self he.2).trans walk_value
  have hagree := (hc.deeper.focus (x.forest.wrapper w).node).agrees ht (hw.starts (g := g)) rfl
  rw [getValue_eq ho ht hw hlive]
  rw [TreeM.RunsOut, getValue_eq ho ht hw hlive] at hright
  cases hvalue : (x.forest.nodeAt w).value.isNone with
  | true =>
    -- the segment `value` gives up before it looks at the kind
    have hread : TreeM.eval (evaluate c e) x = .ok .none x := by
      rw [ownValue_of_isNone hvalue] at hn
      have hdone : evaluate c e x.forest.store = (pure .none : EvalM Value) x.forest.store := hn
      exact (eval_congr hdone).trans rfl
    rw [hread]
    split
    · rfl
    · rename_i hkind
      have hkind : (x.forest.nodeAt w).kind ≠ .op := fun h => hkind ⟨h, rfl⟩
      exact (readNode_of_isNone hvalue hkind hright).symm
  | false =>
    have hread : TreeM.eval (evaluate c e) x = TreeM.eval ((settle (evaluateWithin n) c.deeper
        (x.forest.wrapper w).node (x.forest.wrapper w).node).mapFault Fault.orTooDeep) x := by
      refine eval_congr (hn.trans ?_)
      rw [ownValue_eq_settle hvalue]
      rfl
    rw [if_neg (fun h => nomatch h.2), hread]
    rw [TreeM.RunsOut, hread] at hleft
    exact settle_eq_readNode hagree (.inr hvalue) hleft hright

end

theorem tally_total_ref :
    TreeM.eval (@evaluate Host.none (tally.forest.contextAt ⟨0⟩ ⟨2⟩ .standard) ⟨14⟩) tally =
        .ok .none tally ∧
      ∃ y, @TreeM.getValue Unit Host.none ⟨1⟩ [] tally = .ok (.int 3) y := by
  have hvalue : ∃ y, @TreeM.getValue Unit Host.none ⟨1⟩ [] tally = .ok (.int 3) y := ⟨_, rfl⟩
  refine ⟨?_, hvalue⟩
  exact (@eval_value_ref _ _ _ Host.none _ _ _ _ _ tally_ordered tally_standardTree
    tally_below_total rfl tally_below_field.starts (.inl ⟨rfl, rfl⟩)
    (not_runsOut (a := .none) ⟨_, rfl⟩) (not_runsOut hvalue)).trans (if_pos ⟨rfl, rfl⟩)

end LiveTree
