import LiveTree.Build.Blueprint
import LiveTree.Proofs.Eval.ChildSteps
import LiveTree.Proofs.Eval.Holder
import LiveTree.Proofs.Eval.Negation
import LiveTree.Proofs.Reads.FromAbove
import LiveTree.Proofs.Text.Dotted

/-! Chains of values. The children of a node are the members of a chain: the first holds a value,
and each of the others refers, by way of the node that holds both, to the value of the one before.
Only the member that is read and the node above it have wrappers, so the way up from all members
before it has to be searched for. Each reference takes one level of evaluation and looks nothing
else up, so the value is read from all members that are no further from the first one than there are
levels, and from none beyond. -/

namespace LiveTree

/-- The key of a member of a chain. -/
def chainKey (i : ℕ) : String := "n" ++ toString i

namespace Make

/-- What the member of a chain with a number is to hold. -/
def chainValue (v : Value) : ℕ → StoreM Value
  | 0 => return v
  | i + 1 => do return .node (← ref ("parent." ++ chainKey i ++ ".value"))

/-- The member of a chain with a number. -/
def chainMember (v : Value) (i : ℕ) : StoreM (String × NodeRef) := do
  let value ← chainValue v i
  let r ← property (chainKey i) { value := value }
  return (chainKey i, r)

/-- A chain of so many members. -/
def chain (n : ℕ) (v : Value) : StoreM NodeRef := do
  let members ← (List.range n).mapM (chainMember v)
  property "chain" { children := .ofList members }

end Make

namespace Store

/-- Whether the member of a chain with a number may hold a value. -/
def LinksTo (s : Store) (v : Value) : ℕ → Value → Prop
  | 0, x => x = v
  | i + 1, x => ∃ e, x = .node e ∧ s.IsRef e ["parent", chainKey i, "value"]

/-- Whether a node is the member of a chain with a number. -/
structure IsChainMember (s : Store) (v : Value) (i : ℕ) (r : NodeRef) : Prop where
  kind : (s.node r).kind = .plain
  alone : s.held r = []
  value : s.LinksTo v i (s.node r).value

/-- Whether a node holds a chain of so many members, and nothing else. -/
structure IsChain (s : Store) (root : NodeRef) (n : ℕ) (v : Value) : Prop where
  keys : (s.node root).children.keys = (List.range n).map chainKey
  member : ∀ i r, (s.node root).children.get? (chainKey i) = some r → s.IsChainMember v i r
  metadata : (s.node root).metadata = ∅
  constraints : (s.node root).constraints = ∅

end Store

/-! ### Keys -/

theorem toList_chainKey (i : ℕ) : (chainKey i).toList = 'n' :: Nat.toDigits 10 i := by
  simp only [chainKey, String.toList_append, Nat.toString_eq_ofList_toDigits, String.toList_ofList]
  rfl

theorem chainKey_inj {i j : ℕ} (h : chainKey i = chainKey j) : i = j := by
  have hchars := congrArg String.toList h
  rw [toList_chainKey, toList_chainKey] at hchars
  have hnumbers := congrArg (Nat.ofDigitChars 10 · 0) (List.cons.inj hchars).2
  simpa only [Nat.ofDigitChars_ten_toDigits] using hnumbers

theorem dot_notMem_chainKey (i : ℕ) : '.' ∉ (chainKey i).toList := by
  rw [toList_chainKey]
  intro h
  rcases List.mem_cons.mp h with h | h
  · exact absurd h (by decide)
  · exact absurd (List.all_eq_true.mp (Text.all_isDigit_toDigits i) '.' h) (by decide)

theorem chainKey_keyword (i : ℕ) : Keyword.ofName? (chainKey i) = none := by
  have hne : ∀ word : String, word.toList.head? ≠ some 'n' → chainKey i ≠ word := by
    rintro _ h rfl
    exact h (by rw [toList_chainKey]; rfl)
  simp only [Keyword.ofName?, hne _ (show "value".toList.head? ≠ _ by decide),
    hne _ (show "type".toList.head? ≠ _ by decide), hne _ (show "id".toList.head? ≠ _ by decide),
    hne _ (show "children".toList.head? ≠ _ by decide),
    hne _ (show "metadata".toList.head? ≠ _ by decide),
    hne _ (show "constraints".toList.head? ≠ _ by decide),
    hne _ (show "parent".toList.head? ≠ _ by decide), if_false]

theorem undotted_chainPath (i : ℕ) :
    "parent." ++ chainKey i ++ ".value" = Text.undotted ["parent", chainKey i, "value"] := by
  refine String.toList_inj.mp ?_
  simp [Text.undotted]

/-! ### Making -/

section

variable {s t : Store} {v : Value} {root : NodeRef} {n : ℕ}

theorem Builds.ref {p : Path} (hp : ∀ k ∈ p, '.' ∉ k.toList) (hlong : 1 < p.length) :
    Builds s (Make.ref (Text.undotted p)) fun t e => t.Has (.node e) ∧ t.IsRef e p := by
  have hne : p ≠ [] := by
    rintro rfl
    cases hlong
  have hpath : Make.isNoPath (p.map Value.str) = false := by
    match p, hlong with
    | _ :: _ :: _, _ => rfl
  have hlist : Builds s (StoreM.update (·.allocList (p.map .str))) fun t l =>
      t.Has (.list l) ∧ t.list l = p.map .str := fun s₁ h₁ hs₁ => by
    have hb : (s₁.allocList (p.map .str)).2.Has (.list (s₁.allocList (p.map .str)).1) := by
      simp [Store.Has, Store.allocList]
    refine ⟨_, _, rfl, Store.extends_allocList _, hs₁.allocList ?_, fun t ht => ⟨ht.has hb, ?_⟩⟩
    · rintro _ hv
      obtain ⟨k, -, rfl⟩ := List.mem_map.mp hv
      trivial
    · exact Eq.trans (ht.agree hb) (Store.list_allocList _)
  rw [Make.ref, Text.dotted_undotted hp hne, Make.path, hpath]
  refine .bind hlist fun l s₁ h₁ hl => ?_
  have hnode : Builds s₁ (Make.node "ref" Builtin.ref { value := .list l }) _ :=
    .ofBuiltin "Ref" (by decide) (.ofValue (hl s₁ .refl).1)
  refine hnode.mono fun t e ht he => ⟨he.1.2, by rw [he.2]; rfl, ?_⟩
  rw [he.2]
  exact congrArg some (hl t ht).2

theorem Builds.chainValue (hv : s.Has v) (i : ℕ) :
    Builds s (Make.chainValue v i) fun t x => t.Has x ∧ t.LinksTo v i x := by
  cases i with
  | zero => exact .pure fun t ht => ⟨ht.has hv, rfl⟩
  | succ i =>
    rw [Make.chainValue, undotted_chainPath]
    refine .bind (Builds.ref ?_ (show 1 < 3 by decide)) fun e s₁ _ he => .pure fun t ht =>
      ⟨(he t ht).1, e, rfl, (he t ht).2⟩
    intro k hk
    simp only [List.mem_cons, List.not_mem_nil, or_false] at hk
    rcases hk with rfl | rfl | rfl
    exacts [by decide, dot_notMem_chainKey i, by decide]

theorem Builds.chainMember (hv : s.Has v) (i : ℕ) : Builds s (Make.chainMember v i) fun t p =>
    t.Has (.node p.2) ∧ p.1 = chainKey i ∧ t.IsChainMember v i p.2 := by
  refine .bind (Builds.chainValue hv i) fun x s₁ _ hx =>
    .bind (Builds.ofBuiltin "Property" (by decide) (.ofValue (hx s₁ .refl).1)) fun r s₂ h₂ hr =>
      .pure fun t ht => ?_
  obtain ⟨⟨-, hhas⟩, hnode⟩ := hr t ht
  refine ⟨hhas, rfl, by rw [hnode]; rfl, by rw [Store.held, hnode]; rfl, ?_⟩
  rw [hnode]
  exact (hx t (h₂.trans ht)).2

/-- Making a chain of so many members gives one. -/
theorem Builds.chain (hv : s.Has v) (n : ℕ) :
    Builds s (Make.chain n v) fun t r => t.IsChain r n v := by
  refine .bind (.mapM fun i _ => Builds.chainMember hv i) fun members s₁ _ hmembers => ?_
  have hkeys : members.map Prod.fst = (List.range n).map chainKey := by
    rw [eq_comm, ← List.forall₂_eq_eq_eq, List.forall₂_map_left_iff, List.forall₂_map_right_iff]
    exact (hmembers s₁ .refl).imp fun _ _ hp => hp.2.1.symm
  have hnodup : (members.map Prod.fst).Nodup := by
    rw [hkeys]
    exact List.nodup_range.map fun _ _ => chainKey_inj
  have hhas : ∀ r ∈ (Entries.ofList members).values, s₁.Has (.node r) := by
    intro r hr
    obtain ⟨q, hq, rfl⟩ := List.mem_map.mp (Entries.mem_values_ofList hr)
    obtain ⟨i, -, hhas, -⟩ := exists_partner (hmembers s₁ .refl).flip q hq
    exact hhas
  have hnode : Builds s₁ (Make.property "chain" { children := .ofList members }) _ :=
    .ofBuiltin "Property" (by decide) ⟨trivial, trivial, nofun, nofun, hhas⟩
  refine hnode.mono fun t r ht hr => ?_
  have hchildren : (t.node r).children.toList = members := by
    rw [hr.2]
    exact Entries.toList_ofList hnodup
  refine ⟨by rw [Entries.keys, hchildren, hkeys], fun i q hq => ?_, by rw [hr.2], by rw [hr.2]⟩
  rw [Entries.get?_eq_some_iff, hchildren] at hq
  obtain ⟨j, -, -, hkey, hmember⟩ := exists_partner (hmembers t ht).flip _ hq
  rwa [chainKey_inj hkey]

namespace BuildM

variable {α β : Type}

theorem onStore_pure (a : α) : onStore (pure a) = pure a := rfl

theorem onStore_bind (m : StoreM α) (k : α → StoreM β) :
    onStore (m >>= k) = onStore m >>= fun a => onStore (k a) := by
  funext b
  cases h : m b.store with
  | ok a s =>
    have hm : onStore m b = .ok a { b with store := s } := by
      rw [onStore, EStateM.run, h]
    rw [bind_of_ok hm, onStore, EStateM.run, bind_of_ok h]
    rfl
  | error e s =>
    have hm : onStore m b = .error e { b with store := s } := by
      rw [onStore, EStateM.run, h]
    rw [bind_of_error hm, onStore, EStateM.run, bind_of_error h]

theorem chainMembers_eq (v : Value) (n i : ℕ) :
    chainMembers n i = onStore ((List.range' (i + 1) n).mapM (Make.chainMember v)) := by
  induction n generalizing i with
  | zero => rfl
  | succ n ih =>
    rw [chainMembers, List.range'_succ, List.mapM_cons, Make.chainMember, Make.chainValue]
    simp only [onStore_bind, onStore_pure, bind_assoc, pure_bind, ih]
    rfl

end BuildM

/-- The blueprint of a chain makes a chain. -/
theorem Blueprint.build_chain (n : ℕ) (base : Blueprint) :
    (Blueprint.chain (n + 1) base).build = do
      let v ← base.build
      return .node (← BuildM.onStore (Make.chain (n + 1) v)) := by
  rw [Blueprint.build]
  refine bind_congr fun v => ?_
  rw [Make.chain, List.range_eq_range', List.range'_succ, List.mapM_cons, Make.chainMember,
    Make.chainValue, Nat.add_sub_cancel, BuildM.chainMembers_eq v]
  simp only [BuildM.onStore_bind, bind_assoc, pure_bind]
  rfl

/-! ### The way up -/

namespace Store.IsChain

variable {r : NodeRef} {k : ℕ}

theorem held_eq (h : s.IsChain root n v) : s.held root = (s.node root).children.values := by
  have hnone : (∅ : Entries NodeRef).values = [] := rfl
  rw [held, h.metadata, h.constraints, hnone, List.append_nil, List.append_nil]

theorem exists_member (h : s.IsChain root n v) (hk : k < n) :
    ∃ r, (s.node root).children.get? (chainKey k) = some r := by
  refine Option.isSome_iff_exists.mp (Entries.contains_of_mem_keys ?_)
  rw [h.keys]
  exact List.mem_map_of_mem (List.mem_range.mpr hk)

theorem held_of_held (h : s.IsChain root n v) (hr : r ∈ s.held root) : s.held r = [] := by
  rw [h.held_eq] at hr
  obtain ⟨key, hkey⟩ := Entries.mem_values_iff.mp hr
  have hmem : key ∈ (s.node root).children.keys :=
    List.mem_map_of_mem (Entries.get?_eq_some_iff.mp hkey)
  rw [h.keys] at hmem
  obtain ⟨i, -, rfl⟩ := List.mem_map.mp hmem
  exact (h.member i r hkey).alone

theorem held_of_get? {key : String} (h : s.IsChain root n v)
    (hr : (s.node root).children.get? key = some r) : r ∈ s.held root := by
  rw [h.held_eq]
  exact Entries.mem_values_of_get? hr

/-- The node of a chain is found to hold the members. -/
theorem findParent_eq (h : s.IsChain root n v) (hr : r ∈ s.held root) :
    s.findParent r root = .ok (some root) := by
  have hends : EndsWithin s.held 2 root := fun q hq p hp => by
    rw [h.held_of_held hq] at hp
    cases hp
  have hholder : ∀ {p q : NodeRef}, Reaches s.held root p → q ∈ s.held p → p = root := by
    intro p q hp hq
    rcases Relation.ReflTransGen.cases_head hp with rfl | ⟨m, hm, hp⟩
    · rfl
    · rcases Relation.ReflTransGen.cases_head hp with rfl | ⟨m', hm', -⟩
      · rw [h.held_of_held hm] at hq
        cases hq
      · rw [Above, h.held_of_held hm] at hm'
        cases hm'
  have hsingly : s.SinglyHeld root := fun p q r hp hq hrp hrq =>
    (hholder hp hrp).trans (hholder hq hrq).symm
  exact findParent_eq_holder hends.acyclic hsingly (.refl root) hr

end Store.IsChain

/-! ### Evaluation -/

section

variable [Host] {c : Context} {e : NodeRef} {k m : ℕ}

omit [Host] in
/-- The value of a plain node is what it holds, if that is no node. -/
theorem ownValue_of_plain {eval : Evaluator} {owner r : NodeRef} (hkind : (s.node r).kind = .plain)
    (hv : ∀ q, (s.node r).value ≠ .node q) :
    ownValue eval c r owner s = .done (s.node r).value s := by
  rw [ownValue, EvalM.read_bind, hkind]
  cases h : (s.node r).value with
  | node q => exact absurd h (hv q)
  | _ => rfl

theorem valueOf_of_plain {r : NodeRef} (hkind : (s.node r).kind = .plain)
    (hv : ∀ q, (s.node r).value ≠ .node q) : c.valueOf r s = .done (s.node r).value s := by
  rw [Context.valueOf, EvalM.read_bind, id, hkind]
  cases h : (s.node r).value with
  | node q => exact absurd h (hv q)
  | _ => rfl

/-- A reference to the member of a chain with a number comes to the value of the chain if there are
more levels than that, wherever the members find the node above them. -/
theorem evaluateWithin_link (h : s.IsChain root n v) (hv : ∀ r, v ≠ .node r)
    (hup : ∀ r ∈ s.held root, c.parent s r = .ok (some root)) (hcurrent : c.current ∈ s.held root)
    (hk : k < n) (he : s.IsRef e ["parent", chainKey k, "value"]) :
    evaluateWithin m c e s = if k < m then .done v s else .failed .tooDeep (.ended s) := by
  induction m generalizing k c e with
  | zero => rfl
  | succ m ih =>
    obtain ⟨q, hq⟩ := h.exists_member hk
    obtain ⟨hkind, -, hvalue⟩ := h.member k q hq
    have hreach : evaluateWithin (m + 1) c e s = ownValue (evaluateWithin m) c.deeper q q s := by
      obtain ⟨href, hpath⟩ := he
      calc evaluateWithin (m + 1) c e s
          = resolvePath (evaluateWithin m) c.deeper (s.node e).value s := by
            rw [evaluateWithin, EvalM.read_bind, href]
        _ = walk (evaluateWithin m) c.deeper (some root) root
              [.name (chainKey k), .name "value"] s := by
            rw [resolvePath, EvalM.check_bind (Store.segments_of_sequence hpath)]
            exact EvalM.check_bind (f := (c.deeper.parent · c.current)) (hup _ hcurrent) _
        _ = ownValue (evaluateWithin m) c.deeper q q s :=
            (walk_bare (chainKey_keyword k) hq).trans walk_value
    rw [hreach]
    cases k with
    | zero =>
      cases hvalue
      exact (ownValue_of_plain hkind hv).trans (if_pos (Nat.succ_pos m)).symm
    | succ k =>
      obtain ⟨e', hnode, he'⟩ := hvalue
      rw [ownValue, EvalM.read_bind, hkind, hnode]
      refine (ih (c := c.deeper.focus q) hup (h.held_of_get? hq) (Nat.lt_of_succ_lt hk)
        he').trans ?_
      simp only [Nat.succ_lt_succ_iff]

/-- What a member of a chain stands for: the value of the chain, if there are that many levels. -/
theorem valueOf_member (h : s.IsChain root n v) (hv : ∀ r, v ≠ .node r)
    (hup : ∀ r ∈ s.held root, c.parent s r = .ok (some root)) (hdepth : c.depth = 0) (hk : k < n)
    (hcurrent : (s.node root).children.get? (chainKey k) = some c.current) :
    c.valueOf c.current s =
      if (k : ℤ) ≤ maxDepth then .done v s else .failed .tooDeep (.ended s) := by
  obtain ⟨hkind, -, hvalue⟩ := h.member k _ hcurrent
  cases k with
  | zero =>
    cases hvalue
    exact (valueOf_of_plain hkind hv).trans (if_pos (by decide)).symm
  | succ k =>
    obtain ⟨e, hnode, he⟩ := hvalue
    rw [Context.valueOf, EvalM.read_bind, id, hkind, hnode]
    have hlink := evaluateWithin_link (m := (maxDepth - c.depth).toNat) h hv hup
      (h.held_of_get? hcurrent) (Nat.lt_of_succ_lt hk) he
    have hlevels : k < (maxDepth - c.depth).toNat ↔ ((k + 1 : ℕ) : ℤ) ≤ maxDepth := by
      rw [hdepth]
      omega
    show evaluate c e s = _
    rw [evaluate, EvalM.mapFault, hlink]
    by_cases hle : ((k + 1 : ℕ) : ℤ) ≤ maxDepth
    · rw [if_pos hle, if_pos (hlevels.mpr hle)]
      rfl
    · rw [if_neg hle, if_neg (mt hlevels.mp hle)]
      rfl

end

end

/-! ### Reading -/

/-- Whether a living wrapper without a parent stands on a node, with a registry. -/
structure Forest.Tops (f : Forest) (w : WrapperRef) (r : NodeRef) (g : Registry) : Prop where
  made : w.index < f.wrappers.size
  live : (f.wrapper w).destroyed = false
  node : (f.wrapper w).node = r
  parent : (f.wrapper w).parent = none
  registry : (f.wrapper w).registry = some g

section

variable {σ : Type} {f : Forest} {w c : WrapperRef} {root : NodeRef} {g : Registry} {key : String}

theorem Forest.tops_wrap (f : Forest) (r : NodeRef) (g : Registry) :
    (f.allocWrapper (.ofNode r (some g))).2.Tops (f.allocWrapper (.ofNode r (some g))).1 r g := by
  have hself := f.wrapper_allocWrapper_self (.ofNode r (some g))
  refine ⟨?_, by rw [hself]; rfl, by rw [hself]; rfl, by rw [hself]; rfl, by rw [hself]; rfl⟩
  rw [size_allocWrapper]
  exact Nat.lt_succ_self _

theorem Forest.Tops.registry_eq (h : f.Tops w root g) : f.registry w = some g := by
  rw [Forest.registry, ancestors_eq_nil h.parent, List.findSome?_cons, h.registry]

/-- The seat of a wrapper right below the top one. -/
theorem Forest.Tops.seat_child (h : f.Tops w root g) (ho : f.Ordered)
    (hparent : (f.wrapper c).parent = some w) : f.seat c = ⟨(f.wrapper c).node, root,
      [((f.wrapper c).node, some root), (root, none)], f.registry c⟩ := by
  have hancestors : f.ancestors c = [w] := by
    rw [ancestors_eq_cons ho hparent, ancestors_eq_nil h.parent]
  have hroot : f.root c = w := by
    rw [Forest.root, hancestors]
    rfl
  simp only [seat, hancestors, hroot, List.map_cons, List.map_nil, hparent, h.parent, h.node,
    Option.map_some, Option.map_none]

/-- Going down to a child from the top wrapper leads to a living wrapper right below. -/
theorem Forest.Tops.descend_child {r : NodeRef} (h : f.Tops w root g) (ha : f.Arises false)
    (hr : (f.store.node root).children.get? key = some r) :
    ∃ c f', f.descend w [key] = (some c, f') ∧ f'.store = f.store ∧ f'.Ordered ∧ f'.Tops w root g ∧
      (f'.wrapper c).parent = some w ∧ (f'.wrapper c).node = r ∧ f'.root c = f'.root w := by
  have hchild : (f.nodeAt w).children.get? key = some r := by rwa [nodeAt, h.node]
  obtain ⟨c, f', hget⟩ : ∃ c f', f.descend w [key] = (some c, f') := by
    rcases f.child_cases w key with ⟨hnone, -⟩ | ⟨c, -, -, e⟩ | ⟨_, -, e⟩
    · cases hnone.symm.trans hchild
    · exact ⟨c, f, by rw [descend, e]; rfl⟩
    · exact ⟨_, _, by rw [descend, e]; rfl⟩
  obtain ⟨-, hfollow, -, -, hroot, -⟩ := descend_navigates ha h.made h.live hget
  obtain ⟨halong, hkept, hbeyond, -⟩ := ha.kept.descend h.made hget
  have hlively : f'.Lively := by simpa [hget] using (ha.descend h.made [key]).lively
  obtain ⟨cache, hself⟩ := hbeyond.self
  have htops : f'.Tops w root g :=
    ⟨Nat.lt_of_lt_of_le h.made hbeyond.size_le, by rw [hself]; exact h.live,
      by rw [hself]; exact h.node, by rw [hself]; exact h.parent, by rw [hself]; exact h.registry⟩
  have hparent : (f'.wrapper c).parent = some w := by
    cases halong.leads hkept hlively with
    | child hparent _ _ hrest =>
      cases hrest
      exact hparent
  have hnode : some r = some (f'.wrapper c).node := by
    rw [← hfollow, h.node, Store.follow, hr]
    rfl
  exact ⟨c, f', hget, hbeyond.store, hkept.toOrdered, htops, hparent,
    (Option.some.inj hnode).symm, hroot⟩

/-- From a member of a chain and its holder, the way up from all members is known or found. -/
theorem Seat.parent_member {s : Store} {v : Value} {n : ℕ} {m : NodeRef} (h : s.IsChain root n v)
    {o : Option Registry} :
    ∀ q ∈ s.held root, (contextWith ⟨m, root, [(m, some root), (root, none)], o⟩ g).parent s q =
      .ok (some root) := by
  intro q hq
  have hne : root ≠ q := by
    rintro rfl
    rw [h.held_of_held hq] at hq
    cases hq
  rw [Context.parent, contextWith]
  dsimp only
  rw [Lookup.parent]
  by_cases hm : m = q
  · rw [List.find?_cons_of_pos (by simpa using hm)]
  · rw [List.find?_cons_of_neg (by simpa using hm), List.find?_cons_of_neg (by simpa using hne),
      List.find?_nil]
    exact h.findParent_eq hq

theorem TreeM.descend_eq {x : World σ} {p : Path} {o : Option WrapperRef}
    (h : x.forest.descend w p = (o, f)) : descend w p x = .ok o ⟨f, x.user⟩ := by
  show EStateM.Result.ok (x.forest.descend w p).1 _ = _
  rw [h]

/-- Whether reading the members of a chain from a wrapper comes to its value, for those that are no
further from the first one than evaluations may nest, and fails as nested too deep for the others.
-/
def TreeM.ReadsChain [Host] (w : WrapperRef) (n : ℕ) (v : Value) (x : World σ) : Prop :=
  ∀ k < n, ∃ y, y.forest.store = x.forest.store ∧ getValue w [chainKey k] x =
    if (k : ℤ) ≤ maxDepth then .ok v y else .error .tooDeep y

theorem TreeM.readsChain [Host] {x : World σ} {v : Value} {n : ℕ} (h : x.forest.Tops w root g)
    (ha : x.forest.Arises false) (hs : x.forest.store.IsChain root n v)
    (hv : ∀ r, v ≠ .node r) : ReadsChain w n v x := by
  intro k hk
  obtain ⟨r, hr⟩ := hs.exists_member hk
  obtain ⟨c, f, hget, hstore, ho, htops, hparent, rfl, hroot⟩ := h.descend_child ha hr
  have hseat : { f.seat c with registry := f.registry w : Seat } =
      ⟨(f.wrapper c).node, root, [((f.wrapper c).node, some root), (root, none)], some g⟩ := by
    rw [htops.seat_child ho hparent, htops.registry_eq]
  rw [← hstore] at hs hr
  have hvalue := valueOf_member hs hv (Seat.parent_member (g := g) (o := some g) hs) rfl hk hr
  refine ⟨⟨f, x.user⟩, hstore, ?_⟩
  rw [getValue_of_descend h.live (descend_eq hget) hroot.symm, hseat]
  show TreeM.eval (Context.valueOf _ _) _ = _
  by_cases hle : (k : ℤ) ≤ maxDepth
  · rw [if_pos hle] at hvalue ⊢
    exact eval_done hvalue
  · rw [if_neg hle] at hvalue ⊢
    exact eval_failed hvalue

/-- A chain of any length can be made from any value. When its holder has been wrapped with any
registry, reading a member comes to the value itself, if that is no node, as long as the member is
no further from the first one than evaluations may nest, and fails as nested too deep otherwise. It
does so at any time later too, as long as no wrapper has been destroyed on request and the chain is
there. -/
theorem chain_value_read [Host] (n : ℕ) {v : Value} (hv : ∀ r, v ≠ .node r) :
    (∀ s : Store, s.WellFormed → s.Has v →
      ∃ root t, Make.chain n v s = .ok root t ∧ t.IsChain root n v) ∧
    ∀ (x : World σ) (root : NodeRef) (g : Registry), x.forest.Arises false →
      x.forest.store.IsChain root n v →
      (∃ w y, TreeM.wrap root (some g) x = .ok w y ∧ TreeM.ReadsChain w n v y) ∧
      ∀ w, x.forest.Tops w root g → TreeM.ReadsChain w n v x := by
  refine ⟨fun s hs hhas => ?_, fun x root g ha hchain => ⟨?_, fun w hw => ?_⟩⟩
  · obtain ⟨root, t, hmake, -, -, hchain⟩ := Builds.chain hhas n s .refl hs
    exact ⟨root, t, hmake, hchain t .refl⟩
  · let f := (x.forest.allocWrapper (.ofNode root (some g))).2
    exact ⟨_, _, rfl, TreeM.readsChain (x := ⟨f, x.user⟩) (x.forest.tops_wrap root g)
      (ha.wrap root (some g)) hchain hv⟩
  · exact TreeM.readsChain hw ha hchain hv

/-- Of a chain with 1002 members, all but the last are read. -/
theorem long_chain_read : ∃ root t w, ∃ y : World Unit,
    Make.chain 1002 (.int 5) Store.initial = .ok root t ∧ t.IsChain root 1002 (.int 5) ∧
    TreeM.wrap root (some ∅) ⟨⟨t, #[]⟩, ()⟩ = .ok w y ∧
    (∃ z, @TreeM.getValue Unit Host.none w [chainKey 1000] y = .ok (.int 5) z) ∧
    ∃ z, @TreeM.getValue Unit Host.none w [chainKey 1001] y = .error .tooDeep z := by
  have hint : ∀ r, Value.int 5 ≠ .node r := nofun
  obtain ⟨hmake, hread⟩ := @chain_value_read Unit Host.none 1002 _ hint
  obtain ⟨root, t, hrun, hchain⟩ := hmake Store.initial Store.initial_wellFormed trivial
  obtain ⟨⟨w, y, hwrap, hmembers⟩, -⟩ := hread ⟨⟨t, #[]⟩, ()⟩ root ∅ (.start t) hchain
  obtain ⟨z, -, hz⟩ := hmembers 1000 (by decide)
  obtain ⟨z', -, hz'⟩ := hmembers 1001 (by decide)
  rw [if_pos (by decide)] at hz
  rw [if_neg (by decide)] at hz'
  exact ⟨root, t, w, y, hrun, hchain, hwrap, ⟨z, hz⟩, z', hz'⟩

end

end LiveTree
