import LiveTree.Inspect
import LiveTree.Proofs.Tree.Conduct
import Mathlib.Logic.Function.Iterate

/-! What nodes are, in every forest that can be come to from the built-in types. A node's kind is
fixed when it is made and read ever after in place of the id of its type; the two agree throughout.
The chain of types above a node goes down in the order in which nodes were made, so it comes to an
end, and it can only end at the type of all types. -/

namespace LiveTree

variable {σ α : Type}

/-! ### Guards -/

/-- The guards, with the ids of the types whose nodes pass. -/
def Kind.guarded : List (String × List String) :=
  [("is_constraint", ["Constraint"]), ("is_expr", ["Lit", "Ref", "Op", "Expr"]),
    ("is_lit", ["Lit"]), ("is_op", ["Op"]), ("is_operator", ["Operator"]), ("is_ref", ["Ref"]),
    ("is_type", ["Type"])]

/-- A kind that comes from the id of a type passes the guards for that id. -/
theorem Kind.mem_guards_ofTypeId (id : String) {p : String × List String} (hp : p ∈ guarded) :
    p.1 ∈ (ofTypeId id).guards ↔ id ∈ p.2 := by
  by_cases hknown : id ∈ guarded.flatMap Prod.snd
  · -- the ids that some guard looks for are few
    have hfew : ∀ id ∈ guarded.flatMap Prod.snd, ∀ p ∈ guarded,
        (p.1 ∈ (ofTypeId id).guards ↔ id ∈ p.2) := by decide
    exact hfew id hknown p hp
  · have hplain : ofTypeId id = plain := by
      simp only [guarded, List.flatMap_cons, List.flatMap_nil, List.cons_append, List.nil_append,
        List.mem_cons, List.not_mem_nil, or_false, not_or] at hknown
      simp [ofTypeId, hknown]
    have hnone : plain.guards = [] := by decide
    rw [hplain, hnone]
    exact iff_of_false List.not_mem_nil fun h => hknown (List.mem_flatMap.mpr ⟨p, hp, h⟩)

namespace Store

variable {s : Store}

/-! ### Types -/

/-- Following the types of a node leads to the type of all types. -/
theorem Orderly.exists_iterate_type (hs : s.Orderly) {r : NodeRef} (hr : s.Has (.node r)) :
    ∃ n, (fun q => (s.node q).type)^[n] r = Builtin.type := by
  induction hn : r.index using Nat.strongRecOn generalizing r with
  | _ i ih =>
    by_cases e : r = Builtin.type
    · exact ⟨0, e⟩
    · obtain ⟨n, h⟩ := ih _ (hn ▸ hs.before r hr e) (hs.has_type r) rfl
      exact ⟨n + 1, h⟩

/-- The type of all types is the only node that is its own type. -/
theorem Orderly.type_eq_self_iff (hs : s.Orderly) {r : NodeRef} (hr : s.Has (.node r)) :
    (s.node r).type = r ↔ r = Builtin.type := by
  refine ⟨fun e => ?_, fun e => e ▸ hs.type_type⟩
  by_contra hne
  have hbefore := hs.before r hr hne
  rw [e] at hbefore
  exact Nat.lt_irrefl _ hbefore

end Store

/-! ### What can be come to -/

namespace Forest

variable {f : Forest}

/-- Whether a forest can be come to from the built-in types, by making nodes and by operations on
wrappers. -/
inductive Reached : Forest → Prop
  | start : Reached ⟨.initial, #[]⟩
  /-- A node is made, or making it fails half-way. -/
  | built {f : Forest} (h : Reached f) {m : StoreM NodeRef} (hm : Constructs f.store m) :
    Reached { f with store := finalState (m f.store) }
  /-- There are operations on wrappers. -/
  | operated {f g : Forest} (h : Reached f) (hfg : f.Evolves (fun _ _ => True) true g) : Reached g

theorem Reached.orderly (h : f.Reached) : f.Arises true ∧ f.Orderly := by
  induction h with
  | start =>
    refine ⟨.start _, Store.initial_orderly, fun w => ?_⟩
    rw [wrapper_start]
    decide
  | @built f _ m hm ih =>
    have hdevelops := (hm.develops ih.2.store).1
    refine ⟨ih.1.store _, hdevelops.orderly ih.2.store, fun w => hdevelops.has (ih.2.has_node w)⟩
  | operated _ hfg ih => exact ⟨hfg.arises ih.1, (hfg.keepsOrder ih.1 ih.2).1⟩

/-- What lets forests evolve leads from such a forest to others, whether it fails or not. -/
theorem Reached.conducts {x : World σ} (h : x.forest.Reached) {m : TreeM σ α}
    (hm : Conducts (fun _ _ => True) true x.forest x.forest.wrappers.size m) :
    (finalState (m x)).forest.Reached :=
  h.operated (hm x ⟨h.orderly.1, h.orderly.2, .refl _, Nat.le_refl _⟩)

/-- Whatever has happened, the kind of every node is that of the id of its type, so the guards agree
with the id; its types lead to the type of all types; and that one alone is its own type. -/
theorem Reached.kinds_and_types (h : f.Reached) {r : NodeRef} (hr : f.store.Has (.node r)) :
    (f.store.node r).kind = .ofTypeId (f.store.typeOf r).id ∧
      (∀ p ∈ Kind.guarded, p.1 ∈ (f.store.node r).kind.guards ↔ (f.store.typeOf r).id ∈ p.2) ∧
      (∃ n, (fun q => (f.store.node q).type)^[n] r = Builtin.type) ∧
      ((f.store.node r).type = r ↔ r = Builtin.type) := by
  have hs := h.orderly.2.store
  have hkind := hs.kind_eq r hr
  refine ⟨hkind, fun p hp => ?_, hs.exists_iterate_type hr, hs.type_eq_self_iff hr⟩
  rw [hkind]
  exact Kind.mem_guards_ofTypeId _ hp

/-- A node of a type of its own, under a wrapper. -/
def priced : Forest where
  store := finalState (Make.typed "price" (.node ⟨8⟩) {} (finalState (Make.type "Money" .initial)))
  wrappers := #[.ofNode ⟨9⟩ none]

theorem priced_reached : priced.Reached := by
  have htype := Reached.start.built (.type "Money")
  have hnode := htype.built (.typed "price" (by decide : Store.Has _ (.node ⟨8⟩)) (c := {}) nofun)
  exact hnode.operated (.wrapped (.refl _) (by decide : Store.Has _ (.node ⟨9⟩)) none)

theorem priced_kinds_and_types :
    (priced.store.node ⟨9⟩).kind = .ofTypeId (priced.store.typeOf ⟨9⟩).id ∧
      (∀ p ∈ Kind.guarded,
        p.1 ∈ (priced.store.node ⟨9⟩).kind.guards ↔ (priced.store.typeOf ⟨9⟩).id ∈ p.2) ∧
      (∃ n, (fun q => (priced.store.node q).type)^[n] ⟨9⟩ = Builtin.type) ∧
      ((priced.store.node ⟨9⟩).type = ⟨9⟩ ↔ (⟨9⟩ : NodeRef) = Builtin.type) :=
  priced_reached.kinds_and_types (by decide)

end Forest

end LiveTree
