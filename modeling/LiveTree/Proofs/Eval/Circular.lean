import LiveTree.Proofs.Tree.References

/-! Values that refer to each other in circles. Each step of such a circle takes one level of
evaluation and arrives at a reference of the circle again, so the levels run out: whatever the
circle looks like, and wherever and how deep the evaluation starts, it fails, in one round and with
the store as it was. -/

namespace LiveTree

/-- Whether a set of keys names children of a node whose values are references from the root to the
values of children under keys of the set. -/
def Store.Circular (s : Store) (root : NodeRef) (keys : Set String) : Prop :=
  ∀ key ∈ keys, ∃ q e, (s.node root).children.get? key = some q ∧
    (s.node q).kind.isExpression = false ∧ (s.node q).value = .node e ∧
    ∃ next ∈ keys, s.IsRef e (treePath [next] ++ ["value"])

section

variable [Host] {s : Store} {c : Context} {keys : Set String} {key : String} {e e' q : NodeRef}

/-- A reference to the value of a child takes one level and goes on with what the child holds, which
sees the child as `self`. -/
theorem evaluateWithin_child_value {n : ℕ} (he : s.IsRef e (treePath [key] ++ ["value"]))
    (hq : (s.node c.root).children.get? key = some q)
    (hkind : (s.node q).kind.isExpression = false) (hvalue : (s.node q).value = .node e') :
    evaluateWithin (n + 1) c e s = evaluateWithin n (c.deeper.focus q) e' s := by
  obtain ⟨href, hpath⟩ := he
  have howned : ownValue (evaluateWithin n) c.deeper q q s =
      evaluateWithin n (c.deeper.focus q) e' s := by
    rw [ownValue, EvalM.read_bind, hvalue]
    simp only [hkind, Bool.false_eq_true, if_false]
  calc evaluateWithin (n + 1) c e s
      = resolvePath (evaluateWithin n) c.deeper (s.node e).value s := by
        rw [evaluateWithin, EvalM.read_bind, href]
    _ = walk (evaluateWithin n) c.deeper (some c.root) c.root
          [.name "children", .name key, .name "value"] s := by
        rw [resolvePath, EvalM.check_bind (Store.segments_of_sequence hpath)]
        rfl
    _ = ownValue (evaluateWithin n) c.deeper q q s := (walk_child hq).trans walk_value
    _ = evaluateWithin n (c.deeper.focus q) e' s := howned

/-- However many levels there are, a reference into a circle takes them all. -/
theorem evaluateWithin_circular {n : ℕ} (hs : s.Circular c.root keys) (hkey : key ∈ keys)
    (he : s.IsRef e (treePath [key] ++ ["value"])) :
    evaluateWithin n c e s = .failed .tooDeep (.ended s) := by
  induction n generalizing c key e with
  | zero => rfl
  | succ n ih =>
    obtain ⟨q, e', hq, hkind, hvalue, next, hnext, he'⟩ := hs key hkey
    rw [evaluateWithin_child_value he hq hkind hvalue]
    exact ih (c := c.deeper.focus q) hs hnext he'

/-- A reference into a circle of values fails as nested too deep, at any current node, with any
operators and loop variables, any way to find parents and from any depth on. -/
theorem evaluate_circular (hs : s.Circular c.root keys) (hkey : key ∈ keys)
    (he : s.IsRef e (treePath [key] ++ ["value"])) :
    evaluate c e s = .failed .tooDeep (.ended s) := by
  rw [evaluate, EvalM.mapFault, evaluateWithin_circular hs hkey he]
  rfl

end

/-- A root with a child whose value refers to a second child's, whose value refers to itself, and a
reference to the first. -/
def lasso : Store :=
  let n (id : String) (type : NodeRef) (kind : Kind) (v : Value) : Node :=
    { Builtin.node id type kind with value := v }
  { Store.initial with
    nodes := Store.initial.nodes ++ #[
      n "ref" Builtin.ref .ref (.list ⟨0⟩), n "ref" Builtin.ref .ref (.list ⟨0⟩),
      n "a" Builtin.property .plain (.node ⟨8⟩), n "b" Builtin.property .plain (.node ⟨9⟩),
      { n "root" Builtin.property .plain .none with
        children := .ofList [("a", ⟨10⟩), ("b", ⟨11⟩)] },
      n "ref" Builtin.ref .ref (.list ⟨1⟩)]
    argOrders := Array.replicate 14 none
    lists := #[(treePath ["b"] ++ ["value"]).map .str, (treePath ["a"] ++ ["value"]).map .str] }

theorem lasso_circular : lasso.Circular ⟨12⟩ {"a", "b"} := by
  rintro key (rfl | rfl)
  · exact ⟨⟨10⟩, ⟨8⟩, rfl, rfl, rfl, "b", .inr rfl, rfl, rfl⟩
  · exact ⟨⟨11⟩, ⟨9⟩, rfl, rfl, rfl, "b", .inr rfl, rfl, rfl⟩

theorem lasso_tooDeep :
    @evaluate Host.none ⟨⟨13⟩, ⟨12⟩, .standard, none, 0, none⟩ ⟨13⟩ lasso =
      .failed .tooDeep (.ended lasso) :=
  @evaluate_circular Host.none _ _ _ _ _ lasso_circular (.inl rfl) ⟨rfl, rfl⟩

end LiveTree
