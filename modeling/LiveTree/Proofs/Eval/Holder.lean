import LiveTree.Eval.Parent
import LiveTree.Proofs.Descent
import LiveTree.Proofs.Store.Cells

/-! The search for the holder of a node. In a tree without cycles it comes to an end, and gives a
node below the root that holds the target as long as there is one; if no node is held by two
others, it is the one. Only the nodes of a store matter to it. -/

namespace LiveTree.Store

variable {s t : Store} {target root r p : NodeRef} {n : ℕ}

/-- Whether no node at or below a root is held by two others there. -/
def SinglyHeld (s : Store) (root : NodeRef) : Prop :=
  ∀ p q r, Reaches s.held root p → Reaches s.held root q → r ∈ s.held p → r ∈ s.held q → p = q

theorem mem_held {q : NodeRef} : q ∈ s.held r ↔ ∃ role, q ∈ ((s.node r).entries role).values := by
  simp only [held, List.mem_append]
  constructor
  · rintro ((h | h) | h)
    exacts [⟨.children, h⟩, ⟨.metadata, h⟩, ⟨.constraints, h⟩]
  · rintro ⟨role, h⟩
    cases role
    exacts [.inl (.inr h), .inr h, .inl (.inl h)]

theorem held_eq_of_nodes (h : t.nodes = s.nodes) : t.held = s.held := by
  funext r
  rw [held, held, node, node, h]

theorem mem_parts_of_held {r q : NodeRef} (h : q ∈ s.held r) :
    Value.node q ∈ s.parts (.node r) := by
  obtain ⟨role, h⟩ := mem_held.mp h
  exact (s.node r).entry_mem_parts role h

/-- A descent along entries ends where one along all parts does. -/
theorem endsWithin_held_of_parts {n : ℕ} {r : NodeRef} (h : EndsWithin s.parts n (.node r)) :
    EndsWithin s.held n r := by
  induction n generalizing r with
  | zero => exact h.elim
  | succ n ih => exact fun q hq => ih (h _ (mem_parts_of_held hq))

/-- A descent with something below nodes of the store only visits no more than there are. -/
theorem endsWithin_next {next : NodeRef → List NodeRef} (h : Acyclic next root)
    (hnext : ∀ r, next r ≠ [] → r.index < s.nodes.size) :
    EndsWithin next (s.nodes.size + 1) root :=
  h.endsWithin (fun r _ => hnext r) fun ⟨_⟩ ⟨_⟩ _ _ _ _ h => congrArg NodeRef.mk h

/-- A descent along entries visits no more nodes than there are. -/
theorem endsWithin_nodes (h : Acyclic s.held root) :
    EndsWithin s.held (s.nodes.size + 1) root := by
  refine endsWithin_next h fun r hr => ?_
  by_contra hnot
  refine hr ?_
  rw [held, s.node_of_not_has hnot]
  rfl

/-- So does a descent along entries where one along all parts ends. -/
theorem endsWithin_nodes_of_parts {n : ℕ} (h : EndsWithin s.parts n (.node root)) :
    EndsWithin s.held (s.nodes.size + 1) root :=
  endsWithin_nodes (endsWithin_held_of_parts h).acyclic

theorem endsWithin_held (h : Acyclic s.held root) : EndsWithin s.held s.depthBound root := by
  refine (endsWithin_nodes h).mono ?_
  simp only [depthBound, size]
  omega

/-- What is found is a holder, and nothing is found only if there is none. -/
def Finds (s : Store) (target root : NodeRef) (found : Option NodeRef) : Prop :=
  (∀ p, found = some p → Reaches s.held root p ∧ target ∈ s.held p) ∧
    (found = none → ∀ p, Reaches s.held root p → target ∉ s.held p)

theorem searchEntries_spec {below : NodeRef → Except Fault (Option NodeRef)}
    {entries : List NodeRef} (hentries : ∀ e ∈ entries, e ∈ s.held r)
    (hbelow : ∀ e ∈ entries, ∃ found, below e = .ok found ∧ s.Finds target e found) :
    ∃ found, searchEntries below target r entries = .ok found ∧
      (∀ p, found = some p → Reaches s.held r p ∧ target ∈ s.held p) ∧
      (found = none → ∀ e ∈ entries, e ≠ target ∧ ∀ p, Reaches s.held e p → target ∉ s.held p) := by
  induction entries with
  | nil => exact ⟨none, rfl, by simp, by simp⟩
  | cons e rest ih =>
    obtain ⟨he, hrest⟩ := List.forall_mem_cons.mp hentries
    obtain ⟨⟨found, hfound, hsome, hnone⟩, hbelow⟩ := List.forall_mem_cons.mp hbelow
    rw [searchEntries]
    by_cases htarget : e = target
    · refine ⟨some r, if_pos htarget, ?_, fun h => nomatch h⟩
      rintro _ ⟨⟩
      exact ⟨.refl r, htarget ▸ he⟩
    · rw [if_neg htarget, hfound]
      cases found with
      | some p =>
        obtain ⟨hp, hheld⟩ := hsome p rfl
        refine ⟨some p, rfl, ?_, fun h => nomatch h⟩
        rintro _ ⟨⟩
        exact ⟨hp.of_below he, hheld⟩
      | none =>
        obtain ⟨found, hfound, hsome, hnone'⟩ := ih hrest hbelow
        refine ⟨found, hfound, hsome, fun h => List.forall_mem_cons.mpr ⟨⟨htarget, ?_⟩, hnone' h⟩⟩
        exact hnone rfl

/-- A search that is deep enough finds a holder if there is one. -/
theorem searchBelow_spec (h : EndsWithin s.held n r) :
    ∃ found, s.searchBelow target n r = .ok found ∧ s.Finds target r found := by
  induction n generalizing r with
  | zero => exact h.elim
  | succ n ih =>
    obtain ⟨found, hfound, hsome, hnone⟩ := searchEntries_spec (r := r) (fun _ he => he) fun e he =>
      ih (h e he)
    refine ⟨found, hfound, hsome, fun hf p hp => ?_⟩
    rcases Relation.ReflTransGen.cases_head hp with rfl | ⟨e, he, hp⟩
    · exact fun htarget => (hnone hf target htarget).1 rfl
    · exact (hnone hf e he).2 p hp

/-- In a tree without cycles a search comes to an end. -/
theorem exists_findParent (s : Store) (target : NodeRef) (ha : Acyclic s.held root) :
    ∃ found, s.findParent target root = .ok found := by
  obtain ⟨found, hfound, -⟩ : ∃ found, s.searchBelow target s.depthBound root = .ok found ∧
      s.Finds target root found := searchBelow_spec (endsWithin_held ha)
  rw [findParent]
  split
  exacts [⟨none, rfl⟩, ⟨found, hfound⟩]

/-- The holder of a node is found from the root of a tree in which each node is held by one. -/
theorem findParent_eq_holder (ha : Acyclic s.held root) (hs : s.SinglyHeld root)
    (hp : Reaches s.held root p) (htarget : target ∈ s.held p) :
    s.findParent target root = .ok (some p) := by
  have hne : root ≠ target := by
    rintro rfl
    exact ha root (.refl root) (Relation.TransGen.tail' hp htarget)
  obtain ⟨found, hfound, hsome, hnone⟩ : ∃ found,
      s.searchBelow target s.depthBound root = .ok found ∧ s.Finds target root found :=
    searchBelow_spec (endsWithin_held ha)
  rw [findParent, if_neg hne, hfound]
  cases found with
  | none => exact absurd htarget (hnone rfl p hp)
  | some q =>
    obtain ⟨hq, hheld⟩ := hsome q rfl
    rw [hs p q target hp hq htarget hheld]

end LiveTree.Store
