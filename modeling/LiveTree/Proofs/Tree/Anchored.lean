import LiveTree.Proofs.Tree.Below
import LiveTree.Proofs.Tree.Navigation

/-! Where a wrapper looks for parents. Its ancestors know theirs, and other nodes are searched for
from the root. As long as each wrapper on the way up wraps a child of its parent's node, the parents
known are holders, so in a tree without cycles in which no node is held by two others the two agree
on every node there is. -/

namespace LiveTree

namespace Forest

variable {f : Forest} {w p : WrapperRef}

/-- Whether a wrapper is anchored in its root: each wrapper on the way up wraps a node that is still
a child of its parent's. -/
def Anchored (f : Forest) (w : WrapperRef) : Prop :=
  ∀ a ∈ w :: f.ancestors w, ∀ p, (f.wrapper a).parent = some p →
    ∃ key, (f.nodeAt p).children.get? key = some (f.wrapper a).node

theorem root_of_none (hp : (f.wrapper w).parent = none) : f.root w = w := by
  rw [root, ancestors_eq_nil hp]
  rfl

theorem Ordered.root_of_parent (ho : f.Ordered) (hp : (f.wrapper w).parent = some p) :
    f.root w = f.root p := by
  rw [root, ancestors_eq_cons ho hp, List.getLast?_cons]
  rfl

theorem Anchored.parent (h : f.Anchored w) (ho : f.Ordered)
    (hp : (f.wrapper w).parent = some p) : f.Anchored p := by
  intro a ha
  refine h a (List.mem_cons_of_mem w ?_)
  rwa [ancestors_eq_cons ho hp]

/-- An anchored wrapper stands under its root, which has no parent. -/
theorem Anchored.exists_below (h : f.Anchored w) (ho : f.Ordered) :
    (f.wrapper (f.root w)).parent = none ∧ ∃ path, f.Below (f.root w) path w := by
  obtain ⟨n, hn⟩ : ∃ n, w.index = n := ⟨_, rfl⟩
  induction n using Nat.strongRecOn generalizing w with
  | ind n ih =>
    cases hp : (f.wrapper w).parent with
    | none =>
      rw [root_of_none hp]
      exact ⟨hp, [], .root⟩
    | some p =>
      obtain ⟨key, hnode⟩ := h w List.mem_cons_self p hp
      obtain ⟨hnone, path, hbelow⟩ := ih p.index (hn ▸ ho.parent_lt w p hp) (h.parent ho hp) rfl
      rw [ho.root_of_parent hp]
      exact ⟨hnone, path ++ [key], .child hbelow hp hnode⟩

end Forest

namespace TreeM

variable {σ : Type} {x : World σ} {w v : WrapperRef} {g : Registry} {onRequest : Bool}

/-- In every forest that a program can come to, the context for an anchored wrapper, whichever
wrapper under the same root was asked, has the parents that a search from the root finds, for every
node, in the tree or elsewhere, and the search comes to an end. It stays so while an evaluation adds
cells of other kinds to the store. -/
theorem context_parent_eq (hx : x.forest.Arises onRequest) (hv : x.forest.Anchored v)
    (hacyclic : Acyclic x.forest.store.held (x.forest.wrapper (x.forest.root v)).node)
    (hsingly : x.forest.store.SinglyHeld (x.forest.wrapper (x.forest.root v)).node)
    (hroot : x.forest.root w = x.forest.root v) (hg : x.forest.registry w = some g) :
    ∃ c, context w v x = .ok c x ∧ c.current = (x.forest.wrapper v).node ∧
      c.root = (x.forest.wrapper (x.forest.root v)).node ∧
      ∀ s : Store, s.nodes = x.forest.store.nodes → ∀ q, ∃ found,
        c.parent s q = .ok found ∧ s.findParent q c.root = .ok found := by
  have hcontext : context w v x = .ok (x.forest.contextAt (x.forest.root v) v g) x := by
    rw [context, forest_bind, hg, hroot]
    rfl
  obtain ⟨hnone, path, hbelow⟩ := hv.exists_below hx.kept.toOrdered
  refine ⟨_, hcontext, rfl, rfl, fun s hnodes q => ?_⟩
  have hparent := hbelow.lookup_eq hnone hacyclic hsingly hnodes q
  rw [← Store.held_eq_of_nodes hnodes] at hacyclic
  obtain ⟨found, hfound⟩ := s.exists_findParent q hacyclic
  exact ⟨found, hparent.trans hfound, hfound⟩

end TreeM

/-- A form with standard operators, at whose address and city a program has been. -/
def visitedForm : World Unit where
  forest :=
    (((Forest.mk .addressForm #[]).allocWrapper (.ofNode ⟨10⟩ (some .standard))).2.descend ⟨0⟩
      ["address", "city"]).2
  user := ()

theorem visitedForm_arises : visitedForm.forest.Arises false :=
  ((Forest.Arises.start .addressForm).wrap ⟨10⟩ (some .standard)).descend (by decide) _

theorem visitedForm_anchored : visitedForm.forest.Anchored ⟨2⟩ := by
  have hline : (⟨2⟩ : WrapperRef) :: visitedForm.forest.ancestors ⟨2⟩ = [⟨2⟩, ⟨1⟩, ⟨0⟩] := by decide
  rw [Forest.Anchored, hline]
  simp only [List.forall_mem_cons]
  refine ⟨?_, ?_, ?_, fun _ ha => nomatch ha⟩ <;> rintro p ⟨⟩
  exacts [⟨"city", rfl⟩, ⟨"address", rfl⟩]

theorem visitedForm_singlyHeld : visitedForm.forest.store.SinglyHeld ⟨10⟩ := by
  have hall : ∀ i < 11, ∀ j < 11, ∀ r ∈ Store.addressForm.held ⟨i⟩,
      r ∈ Store.addressForm.held ⟨j⟩ → i = j := by decide
  intro p q r _ _ hp hq
  have hlt : ∀ p : NodeRef, r ∈ Store.addressForm.held p → p.index < 11 := by
    intro p hp
    by_contra hnot
    rw [Store.held, Store.addressForm.node_of_not_has (r := p) hnot] at hp
    cases hp
  exact congrArg NodeRef.mk (hall p.index (hlt p hp) q.index (hlt q hq) r hp hq)

theorem visitedForm_parents :
    ∃ c, TreeM.context ⟨0⟩ ⟨2⟩ visitedForm = .ok c visitedForm ∧
      c.parent .addressForm ⟨8⟩ = .ok (some ⟨9⟩) ∧ c.parent .addressForm ⟨0⟩ = .ok none := by
  obtain ⟨c, hc, -, hroot, hparent⟩ := TreeM.context_parent_eq (w := ⟨0⟩) (g := .standard)
    visitedForm_arises visitedForm_anchored
    (by decide : EndsWithin Store.addressForm.held 4 ⟨10⟩).acyclic visitedForm_singlyHeld rfl rfl
  have hsearch : ∀ q found, Store.addressForm.findParent q ⟨10⟩ = .ok found →
      c.parent .addressForm q = .ok found := by
    intro q found hfound
    obtain ⟨found', hlookup, hfound'⟩ := hparent .addressForm rfl q
    rw [hroot] at hfound'
    rw [hlookup, ← hfound', ← hfound]
    rfl
  exact ⟨c, hc, hsearch _ _ (by decide), hsearch _ _ (by decide)⟩

end LiveTree
