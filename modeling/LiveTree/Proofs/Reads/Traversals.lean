import LiveTree.Proofs.Reads.Visiting

/-! The three ways to go through a subtree with a visitor that may stop by giving false. -/

namespace LiveTree

variable {σ : Type}

/-- Whether a value is a plain false; nothing at all, zero and what is empty are something else. -/
def Value.isFalse : Value → Bool
  | bool false => true
  | _ => false

theorem Value.isFalse_iff {v : Value} : v.isFalse = true ↔ v = .bool false := by
  cases v with
  | bool b => cases b <;> simp [isFalse]
  | _ => simp [isFalse]

/-- Goes on as long as a visitor does not give a plain false. -/
def stoppingAtFalse (visit : WrapperRef → Path → TreeM σ Value) : Visitor σ Unit := fun _ w path => do
  return if (← visit w path).isFalse then .done () else .yield ()

section

variable {visit : WrapperRef → Path → TreeM σ Value} {w c : WrapperRef} {p : Path} {x y : World σ}

theorem stoppingAtFalse_of_ok {a : Value} (h : visit c p x = .ok a y) :
    stoppingAtFalse visit () c p x = .ok (if a.isFalse then .done () else .yield ()) y :=
  bind_of_ok h _

theorem stoppingAtFalse_eq_done_iff : stoppingAtFalse visit () c p x = .ok (.done ()) y ↔
    visit c p x = .ok (.bool false) y := by
  cases hvisit : visit c p x with
  | error f z => simp [stoppingAtFalse, bind_of_error hvisit]
  | ok a z =>
    rw [stoppingAtFalse_of_ok hvisit]
    cases hfalse : a.isFalse with
    | true => simp [Value.isFalse_iff.mp hfalse]
    | false =>
      have hne : a ≠ .bool false := fun h => by simp [h, Value.isFalse] at hfalse
      simp [hne]

theorem stoppingAtFalse_eq_error_iff {f : Fault} : stoppingAtFalse visit () c p x = .error f y ↔
    visit c p x = .error f y := by
  cases hvisit : visit c p x with
  | error f z => simp [stoppingAtFalse, bind_of_error hvisit]
  | ok a z => simp [stoppingAtFalse_of_ok hvisit]

/-- Below a wrapper whose tree has no cycles, with a visitor that changes nothing, each of the three
visits goes through its order of the paths: it visits the wrappers that the first of them lead to, up
to the first at which the visitor gives false, and that one included. Each order has every path once;
one has a node before the subtrees of its children in the order of their keys, one has it after them,
and the third is the first sorted by the lengths of the paths. -/
theorem traversals_in_order (hx : x.forest.Arises true) (hw : w.index < x.forest.wrappers.size)
    (htree : Acyclic x.forest.store.offspring (x.forest.wrapper w).node)
    (hvisit : x.Preserving w (stoppingAtFalse visit)) :
    let s := x.forest.store
    let r := (x.forest.wrapper w).node
    let stopping := stoppingAtFalse visit
    (Traverses stopping w (s.descending r) () x (TreeM.preOrder w () stopping x) ∧
      Traverses stopping w (s.ascending r) () x (TreeM.postOrder w () stopping x) ∧
      Traverses stopping w (s.byLevel r) () x (TreeM.levelOrder w () stopping x)) ∧
    (∀ c p y z, (stopping () c p y = .ok (.done ()) z ↔ visit c p y = .ok (.bool false) z) ∧
      ∀ f, stopping () c p y = .error f z ↔ visit c p y = .error f z) ∧
    (∀ order ∈ [s.descending r, s.ascending r, s.byLevel r],
      order.Nodup ∧ ∀ p, p ∈ order ↔ (s.follow r p).isSome) ∧
    (∀ q, Reaches s.offspring r q →
      s.descending q =
        [] :: (s.node q).children.toList.flatMap (fun e => (s.descending e.2).map (e.1 :: ·)) ∧
      s.ascending q =
        (s.node q).children.toList.flatMap (fun e => (s.ascending e.2).map (e.1 :: ·)) ++ [[]]) ∧
    s.byLevel r = (s.descending r).mergeSort fun p q => decide (p.length ≤ q.length) := by
  intro s r stopping
  refine ⟨⟨preOrder_traverses hx hw htree hvisit, postOrder_traverses hx hw htree hvisit,
    levelOrder_traverses hx hw htree hvisit⟩,
    fun c p y z => ⟨stoppingAtFalse_eq_done_iff, fun f => stoppingAtFalse_eq_error_iff⟩,
    fun order horder => Store.orders_complete htree horder, fun q hq => ?_, rfl⟩
  have hq : Acyclic s.offspring q := fun b hb => htree b (hq.trans hb)
  exact ⟨Store.descending_eq hq, Store.ascending_eq hq⟩

end

/-- A bed and a border with the same plants, among them a rose. -/
def Store.garden : Store :=
  let s := (initial.allocNode { Builtin.node "rose" Builtin.property .plain with }).2
  let s := (s.allocNode { Builtin.node "plants" Builtin.property .plain with
    children := .ofList [("rose", ⟨8⟩)] }).2
  (s.allocNode { Builtin.node "garden" Builtin.property .plain with
    children := .ofList [("bed", ⟨9⟩), ("border", ⟨9⟩)] }).2

/-- A garden, and where a visitor has been. -/
def gardenWorld : World (List Path) where
  forest := ((Forest.mk .garden #[]).allocWrapper (.ofNode ⟨10⟩ none)).2
  user := []

/-- Writes down where it has been, and gives false in the bed, the number zero elsewhere. -/
def strolling : WrapperRef → Path → TreeM (List Path) Value := fun _ path => do
  modify fun x => { x with user := x.user ++ [path] }
  return if path = ["bed"] then .bool false else .int 0

set_option maxRecDepth 4000 in
theorem garden_traversed : ∃ x y z,
    Traverses (stoppingAtFalse strolling) ⟨0⟩
      [[], ["bed"], ["bed", "rose"], ["border"], ["border", "rose"]] () gardenWorld (.ok () x) ∧
    x.user = [[], ["bed"]] ∧
    Traverses (stoppingAtFalse strolling) ⟨0⟩
      [["bed", "rose"], ["bed"], ["border", "rose"], ["border"], []] () gardenWorld (.ok () y) ∧
    y.user = [["bed", "rose"], ["bed"]] ∧
    Traverses (stoppingAtFalse strolling) ⟨0⟩
      [[], ["bed"], ["border"], ["bed", "rose"], ["border", "rose"]] () gardenWorld (.ok () z) ∧
    z.user = [[], ["bed"]] := by
  have htree : Acyclic Store.garden.offspring ⟨10⟩ :=
    EndsWithin.acyclic (n := 3) (by decide)
  have hvisit : gardenWorld.Preserving ⟨0⟩ (stoppingAtFalse strolling) := by
    intro y z p c _ a _ _ hrun
    have hforest : z.forest = y.forest := by
      rw [stoppingAtFalse_of_ok (show strolling c p y = .ok _ _ from rfl)] at hrun
      obtain ⟨-, rfl⟩ := EStateM.Result.ok.inj hrun
      rfl
    rw [hforest]
    exact .refl _ _
  obtain ⟨⟨hpre, hpost, hlevel⟩, -⟩ := traversals_in_order
    ((Forest.Arises.start .garden).wrap ⟨10⟩ none) (by decide) htree hvisit
  have hlevels : Store.garden.byLevel ⟨10⟩ = _ := Store.byLevel_eq htree (m := 12) (by decide)
  change Traverses _ _ (Store.garden.byLevel ⟨10⟩) _ _ _ at hlevel
  rw [hlevels] at hlevel
  exact ⟨_, _, _, hpre, rfl, hpost, rfl, hlevel, rfl⟩

end LiveTree
