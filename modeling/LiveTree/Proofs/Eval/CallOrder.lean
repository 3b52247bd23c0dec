import LiveTree.Proofs.Eval.Numbering
import LiveTree.Proofs.Form.Added
import LiveTree.Proofs.Form.ComesBack
import LiveTree.Proofs.Runs.Related
import LiveTree.Proofs.Tree.ArgumentHistory

/-! The order of a call. A call is recognized by its entries alone: these are the arguments under
their numbers, in any order. Neither a copy nor what is rebuilt from the serialized form changes the
names of the entries, so both are calls of the same operator, on arguments that look like the first
ones. And whatever is a call hands its arguments over in the order in which it was made with them. -/

namespace LiveTree

open Store

variable {s t : Store} {e e' : NodeRef} {name : String} {args args' : List NodeRef}

/-- Whether a node is a call of an operator on arguments that has not been evaluated yet. The
entries of the arguments may have come in any order. -/
structure Store.Calls (s : Store) (e : NodeRef) (name : String) (args : List NodeRef) : Prop where
  id : (s.node e).id = name
  kind : (s.node e).kind = .op
  value : (s.node e).value = .none
  default : (s.node e).default = .none
  metadata : (s.node e).metadata = ∅
  constraints : (s.node e).constraints = ∅
  children : (s.node e).children.toList.Perm (Make.numbered 0 args)
  order : s.argOrder e = none

/-- Whether the evaluation of a node hands certain arguments to the operator of a name: whatever
this operator is, the evaluation is what it makes of the arguments one level further in, on a store
that differs from this one only in the argument orders that it remembers. -/
def Store.Hands (s : Store) (e : NodeRef) (name : String) (args : List NodeRef) : Prop :=
  ∀ [Host] (c : Context) (op : Operator), c.depth < maxDepth → c.registry.get? name = some op →
    ∃ t, { t with argOrders := s.argOrders } = s ∧ evaluate c e s =
      (op.apply (evaluateWithin (maxDepth - c.deeper.depth).toNat) c.deeper args t).mapFault
        Fault.orTooDeep

namespace Store.Calls

/-- A call hands over its arguments in their order. -/
theorem hands (h : s.Calls e name args) (hlength : args.length ≤ 10 ^ Text.numberLength) :
    s.Hands e name args := by
  intro _ c op hdepth hop
  have horder := argumentOrder_of_perm hlength (h.children.map Prod.fst)
  refine ⟨s.setArgOrder e ((Make.numbered 0 args).map Prod.fst), rfl, ?_⟩
  have hargs : orderedArguments e s =
      .done args (s.setArgOrder e ((Make.numbered 0 args).map Prod.fst)) := by
    rw [orderedArguments_of_order h.order horder, Node.arguments_of_perm h.children]
  rw [evaluate_op hdepth h.kind (h.id ▸ hop), EvalM.mapFault]
  show ((orderedArguments e s).bind _).mapFault _ = _
  rw [hargs]
  rfl

/-- The parts of a call are its arguments and nothing with parts. -/
theorem mem_parts (h : s.Calls e name args) {p : Value} (hp : p ∈ s.parts (.node e)) :
    p = .none ∨ ∃ a ∈ args, p = .node a := by
  rcases Node.mem_parts hp with rfl | rfl | ⟨role, a, ha, rfl⟩
  · exact .inl h.value
  · exact .inl h.default
  · cases role with
    | metadata =>
      rw [Node.entries, h.metadata] at ha
      cases ha
    | constraints =>
      rw [Node.entries, h.constraints] at ha
      cases ha
    | children =>
      refine .inr ⟨a, ?_, rfl⟩
      rwa [Node.entries, Entries.values, (h.children.map Prod.snd).mem_iff,
        Make.map_snd_numbered] at ha

/-- What holds of nothing, of a call and of all that is reached from its arguments holds of all that
is reached from the call. -/
theorem forall_reached (h : s.Calls e name args) {P : Value → Prop} (hnone : P .none)
    (he : P (.node e)) (hargs : ∀ a ∈ args, ∀ u, Reaches s.parts (.node a) u → P u) :
    ∀ u, Reaches s.parts (.node e) u → P u := by
  refine Reaches.forall_iff.mpr ⟨he, fun p hp => ?_⟩
  rcases h.mem_parts hp with rfl | ⟨a, ha, rfl⟩
  · exact Reaches.forall_iff.mpr ⟨hnone, nofun⟩
  · exact hargs a ha

/-- A call is acyclic when its arguments are. -/
theorem acyclic (h : s.Calls e name args) (hargs : ∀ a ∈ args, Acyclic s.parts (.node a)) :
    Acyclic s.parts (.node e) := by
  have hnone : ∀ u, ¬ Relation.TransGen (Above s.parts) Value.none u := fun u hu => by
    obtain ⟨p, hp, -⟩ := Relation.TransGen.head'_iff.mp hu
    cases hp
  refine h.forall_reached (hnone _) (fun hcycle => ?_) hargs
  obtain ⟨p, hp, hback⟩ := Relation.TransGen.head'_iff.mp hcycle
  rcases h.mem_parts hp with rfl | ⟨a, ha, rfl⟩
  · rcases Relation.ReflTransGen.cases_head hback with h | ⟨q, hq, -⟩
    · cases h
    · cases hq
  · exact hargs a ha _ (.refl _) (Relation.TransGen.tail' hback hp)

/-- What looks like a call is a call, of the same operator, on arguments that look the same. -/
theorem of_alike (h : s.Calls e name args) (halike : Alike s t (.node e) (.node e'))
    (horder : t.argOrder e' = none) : ∃ args', t.Calls e' name args' ∧
      List.Forall₂ (fun a a' => Alike s t (.node a) (.node a')) args args' := by
  cases halike with
  | scalar hv => cases hv
  | sequence hv => cases hv
  | node hid _ hkind hvalue hdefault hkeys hparts =>
    have hempty : ∀ role, (s.node e).entries role = ∅ → (t.node e').entries role = ∅ := by
      intro role hrole
      have hnone : ((t.node e').entries role).toList = [] := by
        have := hkeys role
        rw [hrole] at this
        exact List.map_eq_nil_iff.mp this
      exact Entries.eq_of_keys_of_values (congrArg (List.map Prod.fst) hnone)
        (congrArg (List.map Prod.snd) hnone)
    rw [h.value] at hvalue
    rw [h.default] at hdefault
    have hnone : ∀ {v}, Alike s t .none v → v = .none := fun hv => by
      cases hv with
      | scalar => rfl
      | sequence hv => cases hv
    -- the entries of the second node, put in the order of the call
    obtain ⟨l, hl, hperm⟩ := List.perm_comp_forall₂ h.children.symm
      (forall₂_pairs.mpr ⟨hkeys .children, hparts .children⟩)
    obtain ⟨hnames, hvalues⟩ :=
      forall₂_pairs (R := fun a a' => Alike s t (.node a) (.node a')) |>.mp hl
    rw [Make.map_snd_numbered] at hvalues
    rw [Make.eq_numbered hnames] at hperm
    exact ⟨l.map Prod.snd, ⟨hid.trans h.id, hkind.trans h.kind, hnone hvalue, hnone hdefault,
      hempty .metadata h.metadata, hempty .constraints h.constraints, hperm.symm, horder⟩, hvalues⟩

/-- A node with the entries of a call and nothing else, of which nothing is remembered. -/
theorem of_node {type : NodeRef} {children : Entries NodeRef}
    (h : s.node e = ⟨name, type, .op, .none, .none, ∅, ∅, children⟩)
    (hchildren : children.toList.Perm (Make.numbered 0 args)) (horder : s.argOrder e = none) :
    s.Calls e name args where
  id := by rw [h]
  kind := by rw [h]
  value := by rw [h]
  default := by rw [h]
  metadata := by rw [h]
  constraints := by rw [h]
  children := by rwa [h]
  order := horder

/-- What is made as a call is one. -/
theorem of_make (hs : s.WellFormed) (horders : ∀ r, ¬ s.Has (.node r) → s.argOrder r = none)
    (name : String) (hlength : args.length ≤ 10 ^ Text.numberLength) :
    ∃ e t, Make.op name args s = .ok e t ∧ t.Calls e name args := by
  rw [← Nat.zero_add args.length] at hlength
  have hid := (hs.builtin ("Op", Builtin.op) (by decide)).2
  let n : Node := ⟨name, Builtin.op, .ofTypeId (s.node Builtin.op).id, .none, .none, ∅, ∅,
    .ofList (Make.numbered 0 args)⟩
  have hkind : n = { n with kind := .op } := by
    simp only [n, hid]
    rfl
  refine ⟨⟨s.nodes.size⟩, (s.allocNode n).2, rfl,
    .of_node ((s.node_allocNode_self n).trans hkind) ?_ ?_⟩
  · rw [Entries.toList_ofList (Make.nodup_numbered hlength)]
  · exact (s.argOrder_allocNode n _).trans (horders _ (Nat.lt_irrefl s.nodes.size))

theorem extend (h : s.Calls e name args) (he : s.Has (.node e)) (hst : s.Adds t) :
    t.Calls e name args :=
  have hnode := hst.cells.node he
  ⟨hnode ▸ h.id, hnode ▸ h.kind, hnode ▸ h.value, hnode ▸ h.default, hnode ▸ h.metadata,
    hnode ▸ h.constraints, hnode ▸ h.children, (hst.order e).trans h.order⟩

/-- What looks like a call after cells have been added, and is one of them, is a call on arguments
that look the same. -/
theorem of_added (h : s.Calls e name args) (hs : s.WellFormed) (he : s.Has (.node e))
    (horders : ∀ r, ¬ s.Has (.node r) → s.argOrder r = none) (hst : s.Adds t) (ht : t.WellFormed)
    (hnew : ¬ s.Has (.node e')) (halike : Alike t t (.node e) (.node e')) :
    ∃ args', t.Calls e' name args' ∧ List.Forall₂ (fun a a' => Alike t t (.node a) (.node a') ∧
      (s.Comparable (.node a) → t.sameNodes a a' = .ok true)) args args' := by
  obtain ⟨args', hcalls, hargs⟩ :=
    (h.extend he hst).of_alike halike ((hst.order e').trans (horders e' hnew))
  refine ⟨args', hcalls, hargs.imp fun a a' haa' => ⟨haa', fun ha => ?_⟩⟩
  have ha := ha.extend hs hst.cells
  exact sameTo_of_alike haa' (ha.ends ht) ha.ordered

/-- A copy of a call is a call on copies of the arguments. -/
theorem copy (h : s.Calls e name args) (hs : s.WellFormed) (he : s.Has (.node e))
    (horders : ∀ r, ¬ s.Has (.node r) → s.argOrder r = none)
    (hargs : ∀ a ∈ args, Acyclic s.parts (.node a)) :
    ∃ e' t args', copyNode e s = .ok e' t ∧ t.Calls e' name args' ∧
      List.Forall₂ (fun a a' => Alike t t (.node a) (.node a') ∧
        (s.Comparable (.node a) → t.sameNodes a a' = .ok true)) args args' := by
  have hacyclic := h.acyclic hargs
  have hend := hs.endsWithin he hacyclic
  obtain ⟨e', t, hrun, hst, ht, hcopy⟩ := copyNode_spec hs he hacyclic
  have hnew : ¬ s.Has (.node e') := by
    cases hcopy with
    | scalar hv => cases hv
    | node hnew => exact hnew.1
  have halike : Alike s t (.node e) (.node e') :=
    hcopy.alike hs hst.outlives (fun v _ => .refl v) hend he fun q hq =>
      alike_of_agree hs hst.outlives (hend.reaches hq) (hs.has_reached he hq) fun _ hx =>
        hst.agree (hs.has_reached he (hq.trans hx))
  obtain ⟨args', hcalls, hlike⟩ := h.of_added hs he horders (copyNode_adds hrun) ht hnew
    (halike.of_extends hs hst he hend)
  exact ⟨e', t, args', hrun, hcalls, hlike⟩

/-- What is rebuilt from the form of a call is a call on arguments that are structurally equal, if
the arguments come back from their forms. -/
theorem rebuild (h : s.Calls e name args) (hs : s.WellFormed) (he : s.Has (.node e))
    (horders : ∀ r, ¬ s.Has (.node r) → s.argOrder r = none) {types : List NodeRef}
    (htypes : ∀ q ∈ types, s.Has (.node q))
    (hargs : ∀ a ∈ args, s.Comparable (.node a) ∧ s.ComesBack types a) :
    ∃ d e' t args', s.nodeForm e = .ok d ∧ deserialize d (.withTypes s types) s = .ok e' t ∧
      t.Calls e' name args' ∧
      List.Forall₂ (fun a a' => t.sameNodes a a' = .ok true) args args' := by
  have hacyclic := h.acyclic fun a ha => (hargs a ha).1.acyclic
  have hend := hs.endsWithin he hacyclic
  have hnan : ∀ u, Reaches s.parts (.node e) u → ¬ u.IsNaN :=
    h.forall_reached (by simp [Value.IsNaN]) (by simp [Value.IsNaN]) fun a ha =>
      (hargs a ha).1.ordered
  have hplain : ∀ u, Reaches s.parts (.node e) u → ¬ s.LooksLikeNode u :=
    h.forall_reached (by simp [LooksLikeNode]) (by simp [LooksLikeNode]) fun a ha =>
      (comesBack_iff hs (hargs a ha).1 htypes).mp (hargs a ha).2
  obtain ⟨d, hform, hd⟩ := hs.form_exists (ν := NodeRef) he hacyclic
  have hsound : TypeTable.Sound (.withTypes s types) s := .withTypes hs htypes
  obtain ⟨e', t, hrun, -, -, halike, -⟩ :=
    deserialize_form hs ⟨he, ⟨_, hend⟩, hplain⟩ hnan hform hsound
  obtain ⟨-, ht, -⟩ := deserialize_settles hs hsound (hform.interchange hend hnan) hrun
  obtain ⟨hst, hnew⟩ := deserialize_adds hrun
  obtain ⟨args', hcalls, hlike⟩ := h.of_added hs he horders hst ht hnew halike
  refine ⟨d, e', t, args', hd, hrun, hcalls, forall₂_imp_mem hlike fun a ha a' _ haa' => ?_⟩
  exact haa'.2 (hargs a ha).1

end Store.Calls

/-- For every operator and every list of arguments, as many as keys can be read for: what is made as
a call of the operator on them is a call. Whatever is a call hands the operator these arguments in
this order when it is evaluated first, in whatever order its entries were inserted. So does a copy of
it with arguments that look the same and are structurally equal, unless they hold what is not a
number; and so does what is rebuilt from its serialized form, with structurally equal arguments, if
the arguments themselves come back from their forms. -/
theorem call_hands_arguments (name : String) {args : List NodeRef}
    (hlength : args.length ≤ 10 ^ Text.numberLength) {s : Store} (hs : s.WellFormed)
    (horders : ∀ r, ¬ s.Has (.node r) → s.argOrder r = none) :
    (∃ e t, Make.op name args s = .ok e t ∧ t.Calls e name args ∧ t.Hands e name args) ∧
    ∀ e, s.Has (.node e) → s.Calls e name args →
      s.Hands e name args ∧
      ((∀ a ∈ args, Acyclic s.parts (.node a)) → ∃ e' t args', copyNode e s = .ok e' t ∧
        t.Calls e' name args' ∧ t.Hands e' name args' ∧
        List.Forall₂ (fun a a' => Alike t t (.node a) (.node a') ∧
          (s.Comparable (.node a) → t.sameNodes a a' = .ok true)) args args') ∧
      ∀ types, (∀ q ∈ types, s.Has (.node q)) →
        (∀ a ∈ args, s.Comparable (.node a) ∧ s.ComesBack types a) →
        ∃ d e' t args', s.nodeForm e = .ok d ∧ deserialize d (.withTypes s types) s = .ok e' t ∧
          t.Calls e' name args' ∧ t.Hands e' name args' ∧
          List.Forall₂ (fun a a' => t.sameNodes a a' = .ok true) args args' := by
  refine ⟨?_, fun e he h => ⟨h.hands hlength, fun hacyclic => ?_, fun types htypes hargs => ?_⟩⟩
  · obtain ⟨e, t, hrun, hcalls⟩ := Calls.of_make hs horders name hlength
    exact ⟨e, t, hrun, hcalls, hcalls.hands hlength⟩
  · obtain ⟨e', t, args', hrun, hcalls, hlike⟩ := h.copy hs he horders hacyclic
    exact ⟨e', t, args', hrun, hcalls, hcalls.hands (hlike.length_eq ▸ hlength), hlike⟩
  · obtain ⟨d, e', t, args', hd, hrun, hcalls, hlike⟩ := h.rebuild hs he horders htypes hargs
    exact ⟨d, e', t, args', hd, hrun, hcalls, hcalls.hands (hlike.length_eq ▸ hlength), hlike⟩

/-- Ten times one literal and then another. -/
def Store.summands : List NodeRef := List.replicate 10 ⟨8⟩ ++ [⟨9⟩]

/-- A call on these arguments, the entries of which were inserted last first. -/
def Store.summing : Store :=
  let s := (initial.allocNode { Builtin.node "lit" Builtin.lit .lit with value := .int 1 }).2
  let s := (s.allocNode { Builtin.node "lit" Builtin.lit .lit with value := .int 2 }).2
  (s.allocNode { Builtin.node "sum" Builtin.op .op with
    children := .ofList (Make.numbered 0 summands).reverse }).2

theorem Store.summands_length : summands.length ≤ 10 ^ Text.numberLength :=
  Nat.le_trans (by decide : 11 ≤ 10 ^ 2) (Nat.pow_le_pow_right (by decide) (by decide))

theorem Store.summing_children : (Entries.ofList (Make.numbered 0 summands).reverse).toList.Perm
    (Make.numbered 0 summands) := by
  rw [Entries.toList_ofList]
  · exact List.reverse_perm _
  · rw [List.map_reverse, List.nodup_reverse]
    exact Make.nodup_numbered (by simpa using summands_length)

theorem Store.summing_wellFormed : summing.WellFormed := by
  refine (initial_wellFormed.allocNode (by decide) rfl (by decide)
    |>.allocNode (by decide) rfl (by decide)).allocNode (by decide) rfl fun p hp => ?_
  rcases Node.mem_parts hp with rfl | rfl | ⟨role, q, hq, rfl⟩
  · trivial
  · trivial
  · cases role with
    | children =>
      have hq := (summing_children.map Prod.snd).mem_iff.mp hq
      rw [Make.map_snd_numbered] at hq
      simp only [summands, List.mem_append, List.mem_replicate, List.mem_singleton] at hq
      rcases hq with ⟨-, rfl⟩ | rfl <;> decide
    | metadata => cases hq
    | constraints => cases hq

theorem Store.summing_comparable : ∀ a ∈ summands, summing.Comparable (.node a) := by
  have hscalar : ∀ p : Value, p.cell? = none → ¬ p.IsNaN → summing.Comparable p := fun p hp hnan =>
    .of_parts (by cases p <;> trivial) hnan (by
      rw [parts_of_cell?_eq_none summing hp]
      exact nofun)
  have hlit : ∀ i : ℕ, ∀ n : Int, summing.parts (.node ⟨i⟩) = [.int n, .none] →
      summing.Has (.node ⟨i⟩) → summing.Comparable (.node ⟨i⟩) := by
    intro i n hparts hhas
    refine .of_parts hhas (by simp [Value.IsNaN]) fun p hp => ?_
    rw [hparts] at hp
    simp only [List.mem_cons, List.not_mem_nil, or_false] at hp
    rcases hp with rfl | rfl <;> exact hscalar _ rfl (by simp [Value.IsNaN])
  intro a ha
  simp only [summands, List.mem_append, List.mem_replicate, List.mem_singleton] at ha
  rcases ha with ⟨-, rfl⟩ | rfl
  · exact hlit 8 1 rfl (by decide)
  · exact hlit 9 2 rfl (by decide)

theorem summing_hands_arguments :
    summing.Hands ⟨10⟩ "sum" summands ∧
    (∃ e t args, copyNode ⟨10⟩ summing = .ok e t ∧ t.Hands e "sum" args ∧
      List.Forall₂ (fun a a' => t.sameNodes a a' = .ok true) summands args) ∧
    ∃ d e t args, summing.nodeForm ⟨10⟩ = .ok d ∧
      deserialize d (.withTypes summing []) summing = .ok e t ∧ t.Hands e "sum" args ∧
      List.Forall₂ (fun a a' => t.sameNodes a a' = .ok true) summands args := by
  have hcalls : summing.Calls ⟨10⟩ "sum" summands :=
    .of_node (node_allocNode_self _ _) summing_children rfl
  have hplain : ∀ a ∈ summands, ∀ u, Reaches summing.parts (.node a) u → ¬ summing.LooksLikeNode u := by
    rintro a ha _ hu ⟨r, rfl, -⟩
    exact absurd (summing_wellFormed.has_reached (summing_comparable a ha).has hu) (Nat.not_lt_zero _)
  have horders : ∀ r, ¬ summing.Has (.node r) → summing.argOrder r = none := fun r hr =>
    dif_neg (show ¬ r.index < summing.argOrders.size from hr)
  obtain ⟨hhands, hcopy, hform⟩ := (call_hands_arguments "sum" summands_length summing_wellFormed
    horders).2 ⟨10⟩ (by decide) hcalls
  obtain ⟨e, t, args, hrun, -, hcopied, hlike⟩ := hcopy fun a ha => (summing_comparable a ha).acyclic
  obtain ⟨d, e', t', args', hd, hrun', -, hrebuilt, hsame⟩ := hform [] (by simp) fun a ha =>
    ⟨summing_comparable a ha, (comesBack_iff summing_wellFormed (summing_comparable a ha)
      (by simp)).mpr (hplain a ha)⟩
  exact ⟨hhands, ⟨e, t, args, hrun, hcopied, forall₂_imp_mem hlike fun a ha a' _ haa' =>
    haa'.2 (summing_comparable a ha)⟩, d, e', t', args', hd, hrun', hrebuilt, hsame⟩

end LiveTree
