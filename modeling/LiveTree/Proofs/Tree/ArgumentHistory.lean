import Mathlib.Data.List.Permutation
import LiveTree.Proofs.Eval.ArgumentOrder
import LiveTree.Proofs.Runs.Single
import LiveTree.Proofs.Tree.Mirror
import LiveTree.Proofs.Tree.Recall
import LiveTree.Proofs.Tree.References

/-! The arguments of an operator expression over time. The order of its argument keys is worked out
when it is first evaluated and kept for good, while children come and go. So each later evaluation
hands the operator those children, by increasing number, that are there at that moment under keys
that were there the first time. A child under a key that came later is not handed over; as long as
there is none, the arguments are the same as if the keys were put in order afresh. -/

namespace LiveTree

open Store

variable {σ : Type} {react : World σ → ℕ → List String → List (Operation σ)} {limit : ℕ}
  {r : NodeRef} {first : Option (List String)} {x : World σ}

/-- How a program may come to a world in which it evaluates an operator expression, given the keys
that the expression had when its arguments were first put in order, if they have been. -/
inductive ArgumentHistory (react : World σ → ℕ → List String → List (Operation σ)) (limit : ℕ)
    (r : NodeRef) : Option (List String) → World σ → Prop
  /-- At the start the expression is there, and nothing is remembered of it. -/
  | start {x : World σ} (hr : r.index < x.forest.store.argOrders.size)
    (hnone : x.forest.store.argOrder r = none) : ArgumentHistory react limit r none x
  /-- Its arguments are put in order, as at the beginning of each evaluation. -/
  | ordered {first : Option (List String)} {x : World σ} {args : List NodeRef} {t : Store}
    (h : ArgumentHistory react limit r first x)
    (ht : orderedArguments r x.forest.store = .done args t) :
    ArgumentHistory react limit r (first <|> some (x.forest.store.node r).children.keys)
      (x.withStore t)
  /-- A program changes the tree and is done. -/
  | changed {first : Option (List String)} {x y : World σ}
    (h : ArgumentHistory react limit r first x) {ops : List (Operation σ)}
    (hy : Operation.performAll (Operation.reacting react limit) ops x = .ok () y) :
    ArgumentHistory react limit r first y
  /-- A program changes the tree and fails. -/
  | failed {first : Option (List String)} {x y : World σ} {e : Fault}
    (h : ArgumentHistory react limit r first x) {ops : List (Operation σ)}
    (hy : Operation.performAll (Operation.reacting react limit) ops x = .error e y) :
    ArgumentHistory react limit r first y
  /-- Anything else happens that does not come to what is remembered of the expression, as the run
  of an operator may be. -/
  | otherwise {first : Option (List String)} {x y : World σ}
    (h : ArgumentHistory react limit r first x)
    (hsize : x.forest.store.argOrders.size ≤ y.forest.store.argOrders.size)
    (hsame : y.forest.store.argOrder r = x.forest.store.argOrder r) :
    ArgumentHistory react limit r first y

/-- What is remembered of an operator expression that had some keys when its arguments were first
put in order. -/
inductive KeptOrder (s : Store) (r : NodeRef) : Option (List String) → Prop
  | unknown (h : s.Recalls r none) : KeptOrder s r none
  | known {old kept : List String} (h : s.Recalls r (some kept)) (hold : old.Nodup)
    (hkept : argumentOrder old = .ok kept) : KeptOrder s r (some old)

namespace KeptOrder

variable {s t : Store}

/-- What leaves the remembered order as it is keeps it. -/
theorem of_recalls (h : KeptOrder s r first) (ht : ∀ kept, s.Recalls r kept → t.Recalls r kept) :
    KeptOrder t r first := by
  cases h with
  | unknown h => exact .unknown (ht _ h)
  | known h hold hkept => exact .known (ht _ h) hold hkept

/-- The arguments are put in order by the keys that are there the first time. -/
theorem ordered (h : KeptOrder s r first) {args : List NodeRef}
    (ht : orderedArguments r s = .done args t) :
    KeptOrder t r (first <|> some (s.node r).children.keys) := by
  rcases orderedArguments_cases s r with ⟨keys, hkeys, e⟩ | ⟨keys, hnone, hkeys, e⟩ | ⟨_, -, -, e⟩ <;>
    rw [e] at ht <;> cases ht
  · cases h with
    | unknown h =>
      rw [h.order] at hkeys
      cases hkeys
    | known h hold hkept => exact .known h hold hkept
  · cases h with
    | unknown h =>
      refine .known ⟨?_, argOrder_setArgOrder_self h.made keys⟩ (s.node r).children.nodup hkeys
      simpa [setArgOrder] using h.made
    | known h hold hkept =>
      rw [h.order] at hnone
      cases hnone

/-- Under argument keys with different numbers, the arguments are those children that are there
under keys of the first time, in the order of their numbers. -/
theorem hands (h : KeptOrder s r first) (hkeys : ArgumentKeys (s.node r).children.keys)
    {sorted : List String} (hsorted : argumentOrder (s.node r).children.keys = .ok sorted) :
    ∃ t, orderedArguments r s = .done ((s.node r).arguments
        (sorted.filter fun k => ∀ old ∈ first, k ∈ old)) t ∧
      { t with argOrders := s.argOrders } = s := by
  rcases orderedArguments_cases s r with ⟨kept, horder, e⟩ | ⟨fresh, hnone, hfresh, e⟩ |
    ⟨fault, -, hfault, -⟩
  · refine ⟨s, ?_, rfl⟩
    rw [e]
    cases h with
    | unknown h =>
      rw [h.order] at horder
      cases horder
    | known h hold hkept =>
      obtain rfl := Option.some.inj (horder.symm.trans h.order)
      rw [← Node.arguments_filter, hkeys.filter_kept (s.node r).children.nodup hold hkept hsorted]
      simp
  · refine ⟨s.setArgOrder r fresh, ?_, rfl⟩
    obtain rfl := Except.ok.inj (hsorted.symm.trans hfresh)
    rw [e]
    cases h with
    | unknown => simp
    | known h =>
      rw [h.order] at hnone
      cases hnone
  · cases hsorted.symm.trans hfault

end KeptOrder

namespace ArgumentHistory

/-- What is remembered at any point of a history was worked out from the keys of the first time. -/
theorem keptOrder (h : ArgumentHistory react limit r first x) :
    KeptOrder x.forest.store r first := by
  induction h with
  | start hr hnone => exact .unknown ⟨hr, hnone⟩
  | ordered _ ht ih => exact ih.ordered ht
  | changed _ hy ih =>
    refine ih.of_recalls fun kept hkept => ?_
    exact ((Operation.performAll_overlooks (Operation.reacting_overlooks react limit) _).ok hkept hy).1
  | failed _ hy ih =>
    refine ih.of_recalls fun kept hkept => ?_
    exact (Operation.performAll_overlooks (Operation.reacting_overlooks react limit) _).error hkept hy
  | otherwise _ hsize hsame ih =>
    refine ih.of_recalls fun kept hkept => ?_
    exact ⟨Nat.lt_of_lt_of_le hkept.made hsize, hsame.trans hkept.order⟩

/-- A history goes on in each later store. If an order has come to be remembered there, the keys
of the expression were put in order in between for the first time. -/
theorem later (h : ArgumentHistory react limit r first x) {t : Store}
    (hr : x.forest.store.Has (.node r)) (ht : x.forest.store.Later t) :
    ArgumentHistory react limit r first (x.withStore t) ∨ first = none ∧
      ArgumentHistory react limit r (some (x.forest.store.node r).children.keys)
        (x.withStore t) := by
  rcases ht.order r hr with e | ⟨hnone, keys, hkeys, hfresh⟩
  · exact .inl (h.otherwise ht.places e)
  · have hkept := h.keptOrder
    cases hkept with
    | known hrecalls =>
      rw [hrecalls.order] at hnone
      cases hnone
    | unknown hrecalls =>
      refine .inr ⟨rfl, ?_⟩
      rcases orderedArguments_cases x.forest.store r with ⟨keys', hkeys', -⟩ |
        ⟨keys', -, hkeys', e⟩ | ⟨_, -, hfault, -⟩
      · cases hnone.symm.trans hkeys'
      · obtain rfl : keys = keys' := Except.ok.inj (hfresh.symm.trans hkeys')
        refine (h.ordered e).otherwise (Nat.le_trans (by simp [World.withStore, World.withForest, setArgOrder]) ht.places) ?_
        exact hkeys.trans (argOrder_setArgOrder_self hrecalls.made keys).symm
      · cases hfresh.symm.trans hfault

/-- A history goes on with the evaluation of any node by standard operators. -/
theorem evaluated [Host] (h : ArgumentHistory react limit r first x)
    (hr : x.forest.store.Has (.node r)) {c : Context}
    (hstandard : ∀ k op, c.registry.get? k = some op → ∃ o, op = .standard o) (q : NodeRef) :
    ∃ result t, (evaluate c q).run x.forest.store = (result, t) ∧
      (ArgumentHistory react limit r first (x.withStore t) ∨ first = none ∧
        ArgumentHistory react limit r (some (x.forest.store.node r).children.keys)
          (x.withStore t)) := by
  have hends := evaluate_ends hstandard q x.forest.store
  rw [EvalM.run]
  generalize evaluate c q x.forest.store = y at hends
  cases hends with
  | done ht => exact ⟨_, _, rfl, h.later hr ht⟩
  | failed ht _ => exact ⟨_, _, rfl, h.later hr ht⟩

end ArgumentHistory

/-- The evaluation of an operator call is what the operator makes of the ordered arguments. -/
theorem evaluate_op [Host] {c : Context} {op : Operator} {s : Store} (hdepth : c.depth < maxDepth)
    (hkind : (s.node r).kind = .op) (hop : c.registry.get? (s.node r).id = some op) :
    evaluate c r s = ((orderedArguments r >>= fun args =>
      op.apply (evaluateWithin (maxDepth - c.deeper.depth).toNat) c.deeper args).mapFault
        Fault.orTooDeep) s := by
  have hlevels : (maxDepth - c.depth).toNat = (maxDepth - c.deeper.depth).toNat + 1 := by
    simp only [Context.deeper]
    omega
  rw [evaluate, EvalM.mapFault, EvalM.mapFault, hlevels, evaluateWithin, EvalM.read_bind]
  simp only [hkind, hop]

/-- Whenever an operator expression is evaluated in its history, with any operator, the operator is
handed exactly those children that are there under keys that were there when the arguments were
first put in order: one for each such key, by increasing number. These are the arguments that come
of putting the keys in order afresh if and only if every key was there the first time. The history
goes on in the store that the operator starts in, which differs from the one before in nothing but
what is remembered. -/
theorem evaluate_hands_arguments [Host] (h : ArgumentHistory react limit r first x) {c : Context}
    {op : Operator} (hdepth : c.depth < maxDepth) (hkind : (x.forest.store.node r).kind = .op)
    (hop : c.registry.get? (x.forest.store.node r).id = some op)
    (hkeys : ArgumentKeys (x.forest.store.node r).children.keys) :
    ∃ sorted handed args t,
      argumentOrder (x.forest.store.node r).children.keys = .ok sorted ∧
      sorted.Perm (x.forest.store.node r).children.keys ∧ sorted.Pairwise ArgumentLess ∧
      handed = sorted.filter (fun k => ∀ old ∈ first, k ∈ old) ∧
      (handed = sorted ↔
        ∀ old ∈ first, ∀ k ∈ (x.forest.store.node r).children.keys, k ∈ old) ∧
      List.Forall₂ (fun k q => (x.forest.store.node r).children.get? k = some q) handed args ∧
      evaluate c r x.forest.store = (op.apply (evaluateWithin (maxDepth - c.deeper.depth).toNat)
        c.deeper args t).mapFault Fault.orTooDeep ∧
      { t with argOrders := x.forest.store.argOrders } = x.forest.store ∧
      ArgumentHistory react limit r
        (first <|> some (x.forest.store.node r).children.keys) (x.withStore t) := by
  have hnodup : (x.forest.store.node r).children.keys.Nodup := (x.forest.store.node r).children.nodup
  obtain ⟨sorted, hsorted⟩ := exists_argumentOrder hkeys.numbered
  have hperm := argumentOrder_perm hsorted
  have hless := hkeys.pairwise_less hnodup hsorted
  have hpresent : ∀ k ∈ sorted.filter (fun k => ∀ old ∈ first, k ∈ old),
      k ∈ (x.forest.store.node r).children.keys := fun k hk =>
    hperm.mem_iff.mp (List.mem_filter.mp hk).1
  have hwhole : sorted.filter (fun k => ∀ old ∈ first, k ∈ old) = sorted ↔
      ∀ old ∈ first, ∀ k ∈ (x.forest.store.node r).children.keys, k ∈ old := by
    rw [List.filter_eq_self]
    simp only [decide_eq_true_eq, hperm.mem_iff]
    exact ⟨fun h old hold k hk => h k hk old hold, fun h k hk old hold => h old hold k hk⟩
  obtain ⟨t, ht, hsame⟩ := h.keptOrder.hands hkeys hsorted
  refine ⟨sorted, _, _, t, hsorted, hperm, hless, rfl, hwhole,
    Node.forall₂_arguments _ hpresent, ?_, hsame, h.ordered ht⟩
  rw [evaluate_op hdepth hkind hop, EvalM.mapFault]
  show ((orderedArguments r x.forest.store).bind _).mapFault _ = _
  rw [ht]
  rfl

/-- A wrapper of an expression that joins two texts, beside a third text. -/
def joining : World Unit where
  forest :=
    { store :=
        let n (id : String) (type : NodeRef) (kind : Kind) (v : Value) : Node :=
          { Builtin.node id type kind with value := v }
        { Store.initial with
          nodes := Store.initial.nodes ++ #[
            n "lit" Builtin.lit .lit (.str "a"), n "lit" Builtin.lit .lit (.str "b"),
            { n "concat" Builtin.op .op .none with
              children := .ofList [("arg0", ⟨8⟩), ("arg1", ⟨9⟩)] },
            n "lit" Builtin.lit .lit (.str "c")]
          argOrders := Array.replicate 12 none }
      wrappers := #[.ofNode ⟨10⟩ (some .standard)] }
  user := ()

/-- The context at the wrapper. -/
def joiningContext : Context where
  current := ⟨10⟩
  root := ⟨10⟩
  registry := .standard
  bindings := none
  depth := 0
  lookup := none

theorem joining_order : argumentOrder ["arg0", "arg1"] = .ok ["arg0", "arg1"] := by cbv

theorem joining_ordered : orderedArguments ⟨10⟩ joining.forest.store =
    .done [⟨8⟩, ⟨9⟩] (joining.forest.store.setArgOrder ⟨10⟩ ["arg0", "arg1"]) :=
  orderedArguments_of_order (s := joining.forest.store) (r := ⟨10⟩) rfl joining_order

/-- The world after the expression was evaluated and then got the third text as an argument. -/
def joiningMore : World Unit :=
  { joining with
    forest :=
      ((((joining.withStore
        (joining.forest.store.setArgOrder ⟨10⟩ ["arg0", "arg1"])).forest.modifyNodeAt ⟨0⟩ fun n =>
          { n with children := n.children.insert "arg2" ⟨11⟩ }).dropCached ⟨0⟩ "arg2").wrapChild
            ⟨0⟩ "arg2" ⟨11⟩).2 }

theorem joiningMore_keys : ArgumentKeys (joiningMore.forest.store.node ⟨10⟩).children.keys where
  numbered := by
    show ∀ k ∈ ["arg0", "arg1", "arg2"], ∃ n, argumentNumber k = .ok n
    simp only [List.forall_mem_cons, List.not_mem_nil, IsEmpty.forall_iff, implies_true, and_true]
    exact ⟨⟨0, rfl⟩, ⟨1, rfl⟩, ⟨2, rfl⟩⟩
  distinct := by
    show ∀ k ∈ ["arg0", "arg1", "arg2"], ∀ k' ∈ ["arg0", "arg1", "arg2"],
      argumentNumber k = argumentNumber k' → k = k'
    decide

/-- When it is evaluated again, the operator is handed the first two arguments only. -/
theorem joiningMore_hands_arguments :
    ∃ t, @evaluate Host.none joiningContext ⟨10⟩ joiningMore.forest.store =
        ((@Operator.apply Host.none (@evaluateWithin Host.none (maxDepth - 1).toNat)
          joiningContext.deeper [⟨8⟩, ⟨9⟩] (.standard .concat)) t).mapFault Fault.orTooDeep ∧
      ArgumentHistory (fun _ _ _ => []) 0 ⟨10⟩ (some ["arg0", "arg1"]) (joiningMore.withStore t) := by
  have hstart : ArgumentHistory (fun _ _ _ => []) 0 ⟨10⟩ none joining := .start (by decide) rfl
  have hadd : Operation.performAll (Operation.reacting (fun _ _ _ => []) 0)
      [.addChild ⟨0⟩ "arg2" ⟨11⟩]
      (joining.withStore (joining.forest.store.setArgOrder ⟨10⟩ ["arg0", "arg1"])) =
      .ok () joiningMore := rfl
  have hmore : ArgumentHistory (fun _ _ _ => []) 0 ⟨10⟩ (some ["arg0", "arg1"]) joiningMore :=
    (hstart.ordered joining_ordered).changed hadd
  have hsorted : argumentOrder (joiningMore.forest.store.node ⟨10⟩).children.keys =
      .ok ["arg0", "arg1", "arg2"] := by
    show argumentOrder ["arg0", "arg1", "arg2"] = _
    cbv
  obtain ⟨sorted, handed, args, t, hsorted', -, -, hhanded, -, hargs, heval, -, h⟩ :=
    @evaluate_hands_arguments Unit (fun _ _ _ => []) 0 ⟨10⟩ _ _ Host.none hmore joiningContext
      (.standard .concat) (by decide) rfl rfl joiningMore_keys
  obtain rfl := Except.ok.inj (hsorted.symm.trans hsorted')
  obtain rfl : handed = ["arg0", "arg1"] := hhanded
  obtain rfl : args = [⟨8⟩, ⟨9⟩] := by
    rcases hargs with _ | ⟨h₁, _ | ⟨h₂, _ | _⟩⟩
    rw [← Option.some.inj h₁, ← Option.some.inj h₂]
  exact ⟨t, heval, h⟩

end LiveTree
