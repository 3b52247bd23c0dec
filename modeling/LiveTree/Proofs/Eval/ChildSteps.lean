import LiveTree.Eval.Evaluate
import LiveTree.Proofs.Tree.Navigation
import LiveTree.Proofs.Tree.References

/-! Paths that first go down children. Where a path goes from a node depends on that node alone:
after a step to a child both marks stand on the child, whatever came before, and the node that
`self` meant at the start is not looked at again. So a path that goes down from the root and then
on means what the rest of it means where the steps have led to. -/

namespace LiveTree

/-- A way of writing the step to a child in a path. -/
inductive ChildStep where
  /-- The word `children`, and then the key. -/
  | spelled (key : String)
  /-- The key alone. -/
  | bare (key : String)

namespace ChildStep

/-- The key of the child. -/
def key : ChildStep → String
  | spelled key => key
  | bare key => key

/-- The step as segments of a path. -/
def segments : ChildStep → List Segment
  | spelled key => [.name "children", .name key]
  | bare key => [.name key]

end ChildStep

namespace Store

/-- Whether the bare keys among some steps from a node are no keywords, and are keys of children of
the nodes that they are to lead on from. -/
def Bares (s : Store) : NodeRef → List ChildStep → Prop
  | _, [] => True
  | r, .bare key :: rest => Keyword.ofName? key = none ∧
      ∃ child, (s.node r).children.get? key = some child ∧ Bares s child rest
  | r, .spelled key :: rest =>
      ∀ child, (s.node r).children.get? key = some child → Bares s child rest

end Store

variable {eval : Evaluator} {c : Context} {s : Store} {r : NodeRef} {steps : List ChildStep}
  {path suffix : Value} {q : List Segment}

/-! ### Starting points -/

/-- A path that has started does not look at the node that `self` means. -/
theorem walk_focus (current : Option NodeRef) (owner : NodeRef) (segs : List Segment) :
    walk eval (c.focus r) current owner segs = walk eval c current owner segs := by
  induction segs using Segment.path_induction generalizing current owner with
  | nil => cases current <;> rfl
  | cons seg rest ih =>
    cases current with
    | none => rfl
    | some current =>
      have hrest := ih rest (List.suffix_refl rest)
      rw [walk, walk]
      congr 1
      funext node
      split
      · rfl
      · exact hrest _ _
      · rfl
      · split
        · rfl
        · simp only [ih _ (List.suffix_cons _ _)]
      · split
        · rfl
        · simp only [ih _ (List.suffix_cons _ _)]
      · split
        · rfl
        · simp only [ih _ (List.suffix_cons _ _)]
      · simp only [hrest]
        rfl
      · simp only [hrest]

/-- A path from `self` goes on from the node that `self` means. -/
theorem resolvePath_of_self (hpath : s.segments path = .ok (.name "self" :: q)) :
    resolvePath eval c path s = walk eval c (some c.current) c.current q s := by
  rw [resolvePath, EvalM.check_bind hpath]
  rfl

/-- A path from `root` goes on from the root. -/
theorem resolvePath_of_root (hpath : s.segments path = .ok (.name "root" :: q)) :
    resolvePath eval c path s = walk eval c (some c.root) c.root q s := by
  rw [resolvePath, EvalM.check_bind hpath]
  rfl

/-! ### Down to a child -/

theorem walk_children_absent {owner : NodeRef} {key : String}
    (h : (s.node r).children.get? key = none) :
    walk eval c (some r) owner (.name "children" :: .name key :: q) s = .done .none s := by
  rw [walk, EvalM.read_bind]
  show (EvalM.ofExcept (.ok ((s.node r).children.get? key)) >>= _) s = _
  rw [EvalM.ofExcept_ok_bind, h]
  rw [walk]
  rfl

/-- A bare key of a child that is no keyword leads to the child. -/
theorem walk_bare {owner child : NodeRef} {key : String} (hname : Keyword.ofName? key = none)
    (h : (s.node r).children.get? key = some child) :
    walk eval c (some r) owner (.name key :: q) s = walk eval c (some child) child q s := by
  rw [walk, EvalM.read_bind]
  simp only [Keyword.ofSegment?, hname, Segment.find, h]
  rfl

/-- Steps to children lead where their keys do, and leave both marks there. -/
theorem walk_steps {owner : NodeRef} (h : s.Bares r steps) (hstart : steps = [] → owner = r) :
    walk eval c (some r) owner (steps.flatMap ChildStep.segments ++ q) s =
      match s.follow r (steps.map ChildStep.key) with
      | some n => walk eval c (some n) n q s
      | none => .done .none s := by
  induction steps generalizing r owner with
  | nil =>
    obtain rfl := hstart rfl
    rfl
  | cons step rest ih =>
    rw [List.flatMap_cons, List.append_assoc, List.map_cons, Store.follow]
    cases step with
    | spelled key =>
      show walk eval c (some r) owner (.name "children" :: .name key :: (_ ++ q)) s = _
      cases hchild : (s.node r).children.get? key with
      | none =>
        rw [walk_children_absent hchild, ChildStep.key, hchild]
        rfl
      | some child =>
        rw [walk_child hchild, ih (h child hchild) fun _ => rfl, ChildStep.key, hchild]
        rfl
    | bare key =>
      obtain ⟨hname, child, hchild, hrest⟩ := h
      show walk eval c (some r) owner (.name key :: (_ ++ q)) s = _
      rw [walk_bare hname hchild, ih hrest fun _ => rfl, ChildStep.key, hchild]
      rfl

/-- A path that goes from the root down to children, each step written either way, and then on
comes to what the rest of it comes to with the node reached as `self`: the same value or fault
with the same effects on the store, whatever the context and the operators. If a key on the way is
not there it comes to the absent value, without effects. -/
theorem resolve_child_steps [Host] (hpath : s.segments path =
      .ok (.name "root" :: (steps.flatMap ChildStep.segments ++ q)))
    (hsuffix : s.segments suffix = .ok (.name "self" :: q)) (hbares : s.Bares c.root steps) :
    resolve c path s =
      match s.follow c.root (steps.map ChildStep.key) with
      | some n => resolve (c.focus n) suffix s
      | none => .done .none s := by
  rw [resolve, resolvePath_of_root hpath, walk_steps hbares fun _ => rfl]
  cases s.follow c.root (steps.map ChildStep.key) with
  | none => rfl
  | some n => exact ((resolvePath_of_self hsuffix).trans (congrFun (walk_focus _ _ q) s)).symm

/-- The store of the tally with a path to the alias from the root, by way of the field's key alone,
and one from `self`. -/
def Store.signposts : Store :=
  { tally.forest.store with
    lists := tally.forest.store.lists ++
      #[["root", "field", "alias"].map .str, ["self", "alias"].map .str] }

/-- The alias refers to the value of its own node, so its owner matters. -/
theorem signposts_child_steps :
    let c := tally.forest.contextAt ⟨0⟩ ⟨0⟩ .standard
    @resolve Host.none c (.list ⟨3⟩) .signposts =
        @resolve Host.none (c.focus ⟨12⟩) (.list ⟨4⟩) .signposts ∧
      @resolve Host.none c (.list ⟨3⟩) .signposts = .done (.int 5) .signposts :=
  ⟨@resolve_child_steps (tally.forest.contextAt ⟨0⟩ ⟨0⟩ .standard) .signposts [.bare "field"]
    (.list ⟨3⟩) (.list ⟨4⟩) [.name "alias"] Host.none rfl rfl ⟨rfl, ⟨12⟩, rfl, trivial⟩, rfl⟩

end LiveTree
