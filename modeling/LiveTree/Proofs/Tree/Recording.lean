import LiveTree.Proofs.Tree.Capture
import Mathlib.Data.List.Perm.Basic
import Mathlib.Logic.Function.Iterate

/-! Recording a graph and putting it back. The search for what is to be recorded goes in rounds, and
each round takes one away from what waits and from the entries of the nodes not yet met together: so
it comes to an end, however often a node waits and however the maps lead back to where they came
from. As each node is recorded once, the records can be put back in any order. -/

namespace LiveTree

namespace Store

variable {s : Store} {r q : NodeRef}

/-- Whether a node is an entry in a map of another. -/
def HoldsNode (s : Store) (r q : NodeRef) : Prop := ∃ role, q ∈ ((s.node r).entries role).values

theorem reachesNode_iff : s.ReachesNode r q ↔ Relation.ReflTransGen s.HoldsNode r q := by
  have hsame : Above s.heldLast = s.HoldsNode := by
    funext r q
    exact propext mem_heldLast
  rw [ReachesNode, Reaches, hsame]

/-! ### Rounds -/

/-- One round of the search, on the nodes that have been met and those that wait. The next one that
waits is passed over if it has been met; otherwise it has been met now, and what it holds waits
before the others. When nothing waits, the search is over. -/
def searchRound (s : Store) : List NodeRef × List NodeRef → List NodeRef × List NodeRef
  | (seen, []) => (seen, [])
  | (seen, r :: rest) =>
    if r ∈ seen then (seen, rest) else (seen ++ [r], s.heldLast r ++ rest)

/-- How many nodes wait or may still come to wait. -/
def searchLoad (s : Store) (x : List NodeRef × List NodeRef) : ℕ := x.2.length + s.pending x.1

variable {n : ℕ} {x : List NodeRef × List NodeRef}

theorem searchLoad_round (h : x.2 ≠ []) : s.searchLoad (s.searchRound x) + 1 = s.searchLoad x := by
  obtain ⟨seen, _ | ⟨r, rest⟩⟩ := x
  · exact absurd rfl h
  · by_cases hr : r ∈ seen
    · simp only [searchRound, if_pos hr, searchLoad, List.length_cons]
      omega
    · have := pending_append (s := s) hr
      simp only [searchRound, if_neg hr, searchLoad, List.length_append, List.length_cons]
      omega

theorem searchRound_of_over (h : x.2 = []) : s.searchRound x = x := by
  obtain ⟨seen, _⟩ := x
  subst h
  rfl

theorem searchRound_iterate_of_over (h : x.2 = []) : s.searchRound^[n] x = x :=
  Function.iterate_fixed (searchRound_of_over h) n

/-- After as many rounds as nodes wait or may still come to wait, the search is over. -/
theorem over_of_searchLoad_le (h : s.searchLoad x ≤ n) : (s.searchRound^[n] x).2 = [] := by
  induction n generalizing x with
  | zero => exact List.eq_nil_of_length_eq_zero (Nat.eq_zero_of_add_eq_zero (Nat.le_zero.mp h)).1
  | succ n ih =>
    by_cases hx : x.2 = []
    · rw [searchRound_iterate_of_over hx, hx]
    · have := searchLoad_round (s := s) hx
      exact ih (by omega)

/-- The search in so many steps is as many rounds. -/
theorem reachTo_eq_searchRound (seen stack : List NodeRef) :
    s.reachTo n seen stack = (s.searchRound^[n] (seen, stack)).1 := by
  induction n generalizing seen stack with
  | zero => rfl
  | succ n ih =>
    cases stack with
    | nil => simp only [reachTo, searchRound_iterate_of_over]
    | cons r rest =>
      rw [Function.iterate_succ_apply, searchRound, reachTo]
      by_cases hr : r ∈ seen
      · rw [if_pos (List.contains_iff_mem.mpr hr), if_pos hr, ih]
      · rw [if_neg (mt List.contains_iff_mem.mp hr), if_neg hr, ih]

/-- The search from a node is over after one round more than there are entries, with what can be
reached. -/
theorem searchRound_iterate_eq_reachable (s : Store) (r : NodeRef) :
    s.searchRound^[s.linkCount + 1] ([], [r]) = (s.reachable r, []) := by
  have hover : (s.searchRound^[s.linkCount + 1] ([], [r])).2 = [] :=
    over_of_searchLoad_le (by rw [searchLoad, linkCount_eq, List.length_singleton, Nat.add_comm])
  have hfound : s.reachable r = (s.searchRound^[s.linkCount + 1] ([], [r])).1 := by
    rw [reachable, reachTo_eq_searchRound, Function.iterate_succ_apply', searchRound_of_over hover]
  exact Prod.ext hfound.symm hover

/-! ### The order of putting back -/

theorem setNode_comm (s : Store) {n m : Node} (h : r ≠ q) :
    (s.setNode r n).setNode q m = (s.setNode q m).setNode r n := by
  have hindex : r.index ≠ q.index := fun e => h (congrArg NodeRef.mk e)
  simp only [setNode, Array.setIfInBounds_comm _ _ hindex]

/-- Records of different nodes can be put back in any order. -/
theorem restore_perm {saved saved' : Saved} (hperm : saved'.Perm saved)
    (hnodup : (saved.map Prod.fst).Nodup) (s : Store) : s.restore saved' = s.restore saved := by
  refine (hperm.symm.foldl_eq' (fun p hp p' hp' s => ?_) s).symm
  by_cases h : p = p'
  · rw [h]
  · exact setNode_comm s fun e => h (List.inj_on_of_nodup_map hnodup hp hp' e)

end Store

/-! ### Recording and putting back -/

open Store

variable {s : Store} {r : NodeRef}

/-- A graph of nodes is recorded, with any sharing and any circles in its maps, if only its values
and defaults have no cycles. The search is over after one round more than there are entries; each
node that is reached through the maps is recorded once, and no other node, with the maps that it
has. Whatever a later store holds in these nodes, the records put their maps back, in any order. -/
theorem capture_puts_back (hs : s.WellFormed) (hr : s.Has (.node r))
    (hcontents : ∀ q, Relation.ReflTransGen s.HoldsNode r q →
      Acyclic s.parts (s.node q).value ∧ Acyclic s.parts (s.node q).default) :
    s.searchRound^[s.linkCount + 1] ([], [r]) = (s.reachable r, []) ∧
    ∃ saved s₁, capture r s = .ok saved s₁ ∧ s.Extends s₁ ∧ saved.map Prod.fst = s.reachable r ∧
      (saved.map Prod.fst).Nodup ∧
      (∀ q, q ∈ saved.map Prod.fst ↔ Relation.ReflTransGen s.HoldsNode r q) ∧
      (∀ p ∈ saved, ∀ role, p.2.entries role = (s.node p.1).entries role) ∧
      ∀ t : Store, (∀ p ∈ saved, t.Has (.node p.1)) → ∀ saved' : Saved, saved'.Perm saved →
        t.restore saved' = t.restore saved ∧
        ∀ q, Relation.ReflTransGen s.HoldsNode r q → ∀ role,
          ((t.restore saved').node q).entries role = (s.node q).entries role := by
  obtain ⟨saved, s₁, hsave, hext, hnames, hsaved⟩ := exists_capture_of_contents hs hr
    fun q hq => hcontents q (reachesNode_iff.mp hq)
  have hnodup : (saved.map Prod.fst).Nodup := hnames ▸ nodup_reachable s r
  have hmem : ∀ q, q ∈ saved.map Prod.fst ↔ Relation.ReflTransGen s.HoldsNode r q := fun q => by
    rw [hnames, mem_reachable, reachesNode_iff]
  refine ⟨searchRound_iterate_eq_reachable s r, saved, s₁, hsave, hext, hnames, hnodup, hmem,
    fun p hp => (hsaved p hp).entries, fun t ht saved' hperm => ?_⟩
  have horder := restore_perm hperm hnodup t
  refine ⟨horder, fun q hq role => ?_⟩
  obtain ⟨⟨q, n⟩, hp, rfl⟩ := List.mem_map.mp ((hmem q).mpr hq)
  rw [horder, node_restore hnodup (ht _ hp) hp]
  exact (hsaved _ hp).entries role

/-- A node with a list, which holds a second node twice; that one holds itself, and the first. -/
def Store.ring : Store :=
  { Store.initial with
    nodes := Store.initial.nodes ++ #[
      { Builtin.node "first" Builtin.property .plain with
        value := .list ⟨0⟩
        children := .ofList [("left", ⟨9⟩), ("right", ⟨9⟩)] },
      { Builtin.node "second" Builtin.property .plain with
        metadata := .ofList [("owner", ⟨8⟩)]
        constraints := .ofList [("self", ⟨9⟩)] }]
    argOrders := Array.replicate 10 none
    lists := #[[.int 1, .str "one"]] }

theorem Store.ring_wellFormed : ring.WellFormed where
  has_links v hv := by
    have hnodes : ∀ i < 10, ∀ p ∈ ring.links (.node ⟨i⟩), ring.Has p := by decide
    have hlists : ∀ i < 1, ∀ p ∈ ring.links (.list ⟨i⟩), ring.Has p := by decide
    cases v with
    | node r => exact hnodes r.index hv
    | list r => exact hlists r.index hv
    | tuple r => simp [Has, ring, initial] at hv
    | dict r => simp [Has, ring, initial] at hv
    | _ => simp [links, parts]
  kind_eq r hr := by
    have hall : ∀ i < 10, (ring.node ⟨i⟩).kind = .ofTypeId (ring.typeOf ⟨i⟩).id := by decide
    exact hall r.index hr
  builtin := by decide

/-- A store after both nodes of the ring have lost their maps. -/
def Store.emptied (s : Store) : Store :=
  let empty (n : Node) : Node := { n with metadata := ∅, constraints := ∅, children := ∅ }
  (s.modifyNode ⟨8⟩ empty).modifyNode ⟨9⟩ empty

/-- The ring is recorded, and put back in reverse after all of its maps have been emptied. -/
theorem ring_puts_back : ∃ saved s₁, capture ⟨8⟩ Store.ring = .ok saved s₁ ∧
    saved.map Prod.fst = [⟨8⟩, ⟨9⟩] ∧
    ((s₁.emptied.restore saved.reverse).node ⟨8⟩).children.toList =
      [("left", ⟨9⟩), ("right", ⟨9⟩)] ∧
    ((s₁.emptied.restore saved.reverse).node ⟨9⟩).metadata.toList = [("owner", ⟨8⟩)] ∧
    ((s₁.emptied.restore saved.reverse).node ⟨9⟩).constraints.toList = [("self", ⟨9⟩)] := by
  have hhas : ∀ q, Relation.ReflTransGen Store.ring.HoldsNode ⟨8⟩ q → Store.ring.Has (.node q) :=
    fun q hq =>
      ring_wellFormed.has_reached (v := .node ⟨8⟩) (by decide) (reachesNode_iff.mpr hq).reaches
  have hends : ∀ i < 10, EndsWithin Store.ring.parts 2 (Store.ring.node ⟨i⟩).value ∧
      EndsWithin Store.ring.parts 2 (Store.ring.node ⟨i⟩).default := by decide
  obtain ⟨-, saved, s₁, hsave, hext, hnames, -, hmem, -, hback⟩ :=
    capture_puts_back (r := ⟨8⟩) ring_wellFormed (by decide) fun q hq =>
      ⟨(hends q.index (hhas q hq)).1.acyclic, (hends q.index (hhas q hq)).2.acyclic⟩
  have hkept : ∀ p ∈ saved, s₁.emptied.Has (.node p.1) := fun p hp => by
    simp only [emptied, modifyNode, has_setNode]
    exact hext.has (hhas _ ((hmem _).mp (List.mem_map_of_mem hp)))
  obtain ⟨-, hmaps⟩ := hback s₁.emptied hkept saved.reverse (List.reverse_perm saved)
  have hsecond : Store.ring.HoldsNode ⟨8⟩ ⟨9⟩ := ⟨.children, by decide⟩
  refine ⟨saved, s₁, hsave, hnames.trans (by decide), ?_, ?_, ?_⟩
  · exact congrArg Entries.toList (hmaps ⟨8⟩ .refl .children)
  · exact congrArg Entries.toList (hmaps ⟨9⟩ (.single hsecond) .metadata)
  · exact congrArg Entries.toList (hmaps ⟨9⟩ (.single hsecond) .constraints)

end LiveTree
