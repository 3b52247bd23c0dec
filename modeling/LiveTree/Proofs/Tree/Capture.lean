import LiveTree.Proofs.Form.Copy
import LiveTree.Tree.Change
import Mathlib.Algebra.BigOperators.Group.Finset.Basic
import Mathlib.Data.List.GetD

/-! Saving what can be reached. The search goes through the maps of each node it meets once and is
over when all entries have been followed, so it misses no node; each node it finds is saved with
copies of its value and default. -/

namespace LiveTree

namespace Store

variable {s : Store}

/-! ### The search -/

/-- The nodes at or below a node by way of the three maps. -/
def ReachesNode (s : Store) : NodeRef → NodeRef → Prop := Reaches s.heldLast

theorem mem_heldLast {r q : NodeRef} :
    q ∈ s.heldLast r ↔ ∃ role, q ∈ ((s.node r).entries role).values := by
  simp only [heldLast, List.mem_reverse, List.mem_append]
  constructor
  · rintro ((h | h) | h)
    exacts [⟨.metadata, h⟩, ⟨.constraints, h⟩, ⟨.children, h⟩]
  · rintro ⟨_ | _ | _, h⟩
    exacts [.inl (.inl h), .inl (.inr h), .inr h]

theorem node_mem_parts_of_mem_heldLast {r q : NodeRef} (h : q ∈ s.heldLast r) :
    Value.node q ∈ s.parts (.node r) :=
  have ⟨role, hq⟩ := mem_heldLast.mp h
  (s.node r).entry_mem_parts role hq

/-- What is reached through the maps is reached through all parts. -/
theorem ReachesNode.reaches {r q : NodeRef} (h : s.ReachesNode r q) :
    Reaches s.parts (.node r) (.node q) := by
  induction h with
  | refl => exact .refl _
  | tail _ hq ih => exact ih.below (node_mem_parts_of_mem_heldLast hq)

/-- How many entries the nodes that have not been met have among them. -/
def pending (s : Store) (seen : List NodeRef) : ℕ :=
  ∑ i ∈ Finset.range s.nodes.size, if ⟨i⟩ ∈ seen then 0 else (s.heldLast ⟨i⟩).length

theorem foldl_add_eq_sum (f : Node → ℕ) (l : List Node) :
    l.foldl (fun n x => n + f x) 0 = ∑ i ∈ Finset.range l.length, f (l.getD i default) := by
  induction l using List.reverseRecOn with
  | nil => rfl
  | append_singleton l x ih =>
    have hsum : ∑ i ∈ Finset.range l.length, f ((l ++ [x]).getD i default) =
        ∑ i ∈ Finset.range l.length, f (l.getD i default) :=
      Finset.sum_congr rfl fun i hi => by rw [List.getD_append _ _ _ _ (Finset.mem_range.mp hi)]
    rw [List.foldl_append, ih, List.length_append, List.length_singleton, Finset.sum_range_succ,
      hsum]
    simp

theorem length_heldLast (s : Store) (r : NodeRef) : (s.heldLast r).length =
    (s.node r).metadata.size + (s.node r).constraints.size + (s.node r).children.size := by
  simp only [heldLast, Entries.values, Entries.size, List.length_reverse, List.length_append,
    List.length_map]

theorem linkCount_eq (s : Store) : s.linkCount = s.pending [] := by
  have hfold := foldl_add_eq_sum (fun x => x.metadata.size + x.constraints.size + x.children.size)
    s.nodes.toList
  simp only [← Nat.add_assoc, Array.foldl_toList, Array.length_toList] at hfold
  rw [linkCount, hfold, pending]
  refine Finset.sum_congr rfl fun i hi => ?_
  have hi := Finset.mem_range.mp hi
  simp [length_heldLast, node, Array.getD, hi]

theorem heldLast_of_not_has {r : NodeRef} (h : ¬ s.Has (.node r)) : s.heldLast r = [] := by
  rw [heldLast, node_of_not_has s h]
  rfl

theorem pending_append {seen : List NodeRef} {r : NodeRef} (hr : r ∉ seen) :
    (s.heldLast r).length + s.pending (seen ++ [r]) = s.pending seen := by
  by_cases hhas : s.Has (.node r)
  · have hmem : r.index ∈ Finset.range s.nodes.size := Finset.mem_range.mpr hhas
    rw [pending, pending, ← Finset.add_sum_erase _ _ hmem, ← Finset.add_sum_erase _ _ hmem,
      if_pos (by simp), if_neg hr, Nat.zero_add]
    congr 1
    refine Finset.sum_congr rfl fun i hi => ?_
    have hne : (⟨i⟩ : NodeRef) ≠ r := fun e => (Finset.mem_erase.mp hi).1 (congrArg NodeRef.index e)
    simp [hne]
  · rw [heldLast_of_not_has hhas, List.length_nil, Nat.zero_add]
    refine Finset.sum_congr rfl fun i hi => ?_
    have hne : (⟨i⟩ : NodeRef) ≠ r := fun e => hhas (e ▸ Finset.mem_range.mp hi)
    simp [hne]

/-- The search gives each node once, and all that lies below what it gives. -/
theorem reachTo_spec {n : ℕ} {seen stack : List NodeRef} (hnodup : seen.Nodup)
    (hclosed : ∀ q ∈ seen, ∀ p ∈ s.heldLast q, p ∈ seen ∨ p ∈ stack)
    (hn : stack.length + s.pending seen < n) :
    (s.reachTo n seen stack).Nodup ∧ (∀ q, q ∈ seen ∨ q ∈ stack → q ∈ s.reachTo n seen stack) ∧
      ∀ q ∈ s.reachTo n seen stack, ∀ p ∈ s.heldLast q, p ∈ s.reachTo n seen stack := by
  induction n generalizing seen stack with
  | zero => omega
  | succ n ih =>
    cases stack with
    | nil =>
      simp only [reachTo]
      exact ⟨hnodup, by simp, fun q hq p hp => (hclosed q hq p hp).resolve_right (by simp)⟩
    | cons r rest =>
      simp only [List.length_cons] at hn
      by_cases hr : r ∈ seen
      · rw [reachTo, if_pos (by simpa using hr)]
        have hclosed' : ∀ q ∈ seen, ∀ p ∈ s.heldLast q, p ∈ seen ∨ p ∈ rest := by
          intro q hq p hp
          rcases hclosed q hq p hp with h | h
          · exact .inl h
          · rcases List.mem_cons.mp h with rfl | h
            exacts [.inl hr, .inr h]
        obtain ⟨h₁, h₂, h₃⟩ := ih hnodup hclosed' (by omega)
        refine ⟨h₁, fun q hq => ?_, h₃⟩
        rcases hq with hq | hq
        · exact h₂ q (.inl hq)
        · rcases List.mem_cons.mp hq with rfl | hq
          exacts [h₂ q (.inl hr), h₂ q (.inr hq)]
      · rw [reachTo, if_neg (by simpa using hr)]
        have hpending := pending_append (s := s) hr
        have hnodup' : (seen ++ [r]).Nodup := by
          rw [← List.concat_eq_append]
          exact hnodup.concat hr
        have hclosed' : ∀ q ∈ seen ++ [r], ∀ p ∈ s.heldLast q,
            p ∈ seen ++ [r] ∨ p ∈ s.heldLast r ++ rest := by
          intro q hq p hp
          simp only [List.mem_append, List.mem_singleton] at hq ⊢
          rcases hq with hq | rfl
          · have := hclosed q hq p hp
            simp only [List.mem_cons] at this
            tauto
          · exact .inr (.inl hp)
        obtain ⟨h₁, h₂, h₃⟩ := ih hnodup' hclosed' (by rw [List.length_append]; omega)
        refine ⟨h₁, fun q hq => h₂ q ?_, h₃⟩
        simp only [List.mem_append, List.mem_cons, List.not_mem_nil, or_false] at hq ⊢
        tauto

/-- What holds at the start of a search and below what it holds of holds of all that is found. -/
theorem forall_mem_reachTo {P : NodeRef → Prop} (hP : ∀ q, P q → ∀ p ∈ s.heldLast q, P p) {n : ℕ}
    {seen stack : List NodeRef} (hseen : ∀ q ∈ seen, P q) (hstack : ∀ q ∈ stack, P q) :
    ∀ q ∈ s.reachTo n seen stack, P q := by
  induction n generalizing seen stack with
  | zero => exact hseen
  | succ n ih =>
    cases stack with
    | nil => exact hseen
    | cons r rest =>
      simp only [List.forall_mem_cons] at hstack
      rw [reachTo]
      split
      · exact ih hseen hstack.2
      · refine ih (fun q hq => ?_) fun q hq => ?_
        · rcases List.mem_append.mp hq with hq | hq
          · exact hseen q hq
          · rw [List.mem_singleton.mp hq]
            exact hstack.1
        · rcases List.mem_append.mp hq with hq | hq
          · exact hP r hstack.1 q hq
          · exact hstack.2 q hq

/-- The search finds exactly the nodes that are reached through the three maps. -/
theorem mem_reachable {r q : NodeRef} : q ∈ s.reachable r ↔ s.ReachesNode r q := by
  have hspec := @reachTo_spec s (s.linkCount + 2) [] [r] List.nodup_nil (by simp)
    (by simp [linkCount_eq]; omega)
  constructor
  · exact forall_mem_reachTo (P := s.ReachesNode r) (fun q hq p hp => hq.below hp) (by simp)
      (List.forall_mem_singleton.mpr (.refl r)) q
  · exact fun h => h.closed (hspec.2.1 r (by simp)) fun x _ hx => hspec.2.2 x hx

theorem nodup_reachable (s : Store) (r : NodeRef) : (s.reachable r).Nodup :=
  (reachTo_spec List.nodup_nil (by simp) (by simp [linkCount_eq]; omega)).1

/-! ### Putting nodes back -/

theorem agree_restore {saved : Saved} {v : Value} (h : ∀ p ∈ saved, v ≠ .node p.1) :
    s.Agree (s.restore saved) v := by
  induction saved generalizing s with
  | nil => exact .refl v
  | cons p rest ih =>
    simp only [List.forall_mem_cons] at h
    exact (agree_setNode h.1).trans (ih h.2)

/-- A node that was saved once is as it was saved. -/
theorem node_restore {saved : Saved} (hnodup : (saved.map Prod.fst).Nodup) {r : NodeRef} {n : Node}
    (hr : s.Has (.node r)) (h : (r, n) ∈ saved) : (s.restore saved).node r = n := by
  induction saved generalizing s with
  | nil => cases h
  | cons p rest ih =>
    simp only [List.map_cons, List.nodup_cons] at hnodup
    rcases List.mem_cons.mp h with rfl | h
    · have hrest : ∀ p ∈ rest, Value.node r ≠ .node p.1 := fun p hp e =>
        hnodup.1 (List.mem_map.mpr ⟨p, hp, (Value.node.inj e).symm⟩)
      exact Eq.trans (agree_restore (s := s.setNode r n) hrest) (node_setNode_self s r n hr)
    · exact ih hnodup.2 ((has_setNode _ _).mpr hr) h

theorem outlives_restore {saved : Saved} (h : ∀ p ∈ saved, (s.node p.1).Akin p.2) :
    s.Outlives (s.restore saved) := by
  induction saved generalizing s with
  | nil => exact Extends.refl.outlives
  | cons p rest ih =>
    simp only [List.forall_mem_cons] at h
    refine (outlives_setNode h.1).trans (ih fun q hq => ?_)
    exact (akin_setNode h.1 q.1).symm.trans (h.2 q hq)

end Store

/-! ### Saving -/

open Store

variable {s t u : Store}

/-- Whether a record of a node has its id, type, kind and maps, and what looks like its value and
default. -/
structure SavedAs (s t : Store) (r : NodeRef) (n : Node) : Prop where
  akin : (s.node r).Akin n
  entries : ∀ role, n.entries role = (s.node r).entries role
  value : Alike s t (s.node r).value n.value
  default : Alike s t (s.node r).default n.default

/-- Whether a record of a node has its id, type, kind and maps, and copies of its value and
default. -/
structure SavedCopy (s t : Store) (r : NodeRef) (n : Node) : Prop where
  akin : (s.node r).Akin n
  entries : ∀ role, n.entries role = (s.node r).entries role
  value : CopyOf s t (s.node r).value n.value
  default : CopyOf s t (s.node r).default n.default

/-- The copies in a record look the same in all later stores that hold them as they were made. -/
theorem SavedCopy.savedAs {r : NodeRef} {n : Node} (h : SavedCopy s t r n) (hs : s.WellFormed)
    (hsu : s.Outlives u) (hkeep : s.Retains t u) (hr : s.Has (.node r))
    (hend : ∀ p ∈ (s.node r).parts, EndsWithin s.parts s.depthBound p)
    (hplain : s.PlainTuples (.node r)) : SavedAs s u r n where
  akin := h.akin
  entries := h.entries
  value := h.value.alike_of_plain hs hsu hkeep (hend _ (s.node r).value_mem_parts)
    (hs.has_parts hr _ (s.node r).value_mem_parts) (hplain.below (s.node r).value_mem_parts)
  default := h.default.alike_of_plain hs hsu hkeep (hend _ (s.node r).default_mem_parts)
    (hs.has_parts hr _ (s.node r).default_mem_parts) (hplain.below (s.node r).default_mem_parts)

theorem builds_savedNode {r : NodeRef} (hs : s.WellFormed) (hr : s.Has (.node r))
    (hvalue : EndsWithin s.parts s.depthBound (s.node r).value)
    (hdefault : EndsWithin s.parts s.depthBound (s.node r).default) :
    Builds s (savedNode r) fun t p => p.1 = r ∧ SavedCopy s t r p.2 := by
  have copy : ∀ p ∈ (s.node r).parts, EndsWithin s.parts s.depthBound p → ∀ s₁, s.Extends s₁ →
      Builds s₁ (copyValue p) fun t w => CopyOf s t p w := fun p hp hend s₁ h₁ =>
    builds_copyValue hs hend (hs.has_parts hr p hp) h₁
  refine .get_bind fun s₁ h₁ => ?_
  rw [h₁.node hr]
  refine .bind (copy _ (s.node r).value_mem_parts hvalue s₁ h₁) fun value s₂ h₂ hvalue =>
    .bind (copy _ (s.node r).default_mem_parts hdefault s₂ (h₁.trans h₂))
      fun default s₃ h₃ hdefault => ?_
  refine .pure fun t ht => ⟨rfl, ⟨rfl, rfl, rfl⟩, ?_, hvalue t (h₃.trans ht), hdefault t ht⟩
  rintro (_ | _ | _) <;> rfl

theorem saved_partners {P : NodeRef → Node → Prop} {l : List NodeRef} {saved : Saved}
    (h : List.Forall₂ (fun q p => p.1 = q ∧ P q p.2) l saved) :
    saved.map Prod.fst = l ∧ ∀ p ∈ saved, P p.1 p.2 := by
  induction h with
  | nil => exact ⟨rfl, by simp⟩
  | cons h _ ih =>
    obtain ⟨rfl, hP⟩ := h
    exact ⟨by rw [List.map_cons, ih.1], List.forall_mem_cons.mpr ⟨hP, ih.2⟩⟩

/-- Whether no value or default of the nodes at or below a node leads back to itself. The maps may
lead back to where they came from. -/
def Store.ContentsAcyclic (s : Store) (r : NodeRef) : Prop :=
  ∀ q, s.ReachesNode r q → Acyclic s.parts (s.node q).value ∧ Acyclic s.parts (s.node q).default

/-- All nodes that are reached from one can be saved if their values and defaults have no cycles. -/
theorem exists_capture_of_contents {r : NodeRef} (hs : s.WellFormed) (hr : s.Has (.node r))
    (hcontents : s.ContentsAcyclic r) :
    ∃ saved s₁, capture r s = .ok saved s₁ ∧ s.Extends s₁ ∧ saved.map Prod.fst = s.reachable r ∧
      ∀ p ∈ saved, SavedCopy s s₁ p.1 p.2 := by
  have hhas : ∀ q ∈ s.reachable r, s.Has (.node q) := fun q hq =>
    hs.has_reached hr (mem_reachable.mp hq).reaches
  have hbuilds : Builds s ((s.reachable r).mapM savedNode) fun t =>
      List.Forall₂ (fun q p => p.1 = q ∧ SavedCopy s t q p.2) (s.reachable r) :=
    .mapM (T := fun t q (p : NodeRef × Node) => p.1 = q ∧ SavedCopy s t q p.2) fun q hq => by
      obtain ⟨hvalue, hdefault⟩ := hcontents q (mem_reachable.mp hq)
      have hparts := hs.has_parts (hhas q hq)
      exact builds_savedNode hs (hhas q hq)
        (hs.endsWithin (hparts _ (s.node q).value_mem_parts) hvalue)
        (hs.endsWithin (hparts _ (s.node q).default_mem_parts) hdefault)
  obtain ⟨saved, s₁, hsave, hext, -, hsaved⟩ := hbuilds s .refl hs
  exact ⟨saved, s₁, hsave, hext, saved_partners (hsaved s₁ .refl)⟩

/-- All nodes that are reached from one without cycles can be saved. -/
theorem exists_capture {r : NodeRef} (hs : s.WellFormed) (hr : s.Has (.node r))
    (hacyclic : Acyclic s.parts (.node r)) :
    ∃ saved s₁, capture r s = .ok saved s₁ ∧ s.Extends s₁ ∧ saved.map Prod.fst = s.reachable r ∧
      ∀ p ∈ saved, SavedCopy s s₁ p.1 p.2 :=
  exists_capture_of_contents hs hr fun q hq =>
    ⟨fun _ hb => hacyclic _ (hq.reaches.trans (hb.of_below (s.node q).value_mem_parts)),
      fun _ hb => hacyclic _ (hq.reaches.trans (hb.of_below (s.node q).default_mem_parts))⟩

/-- What has been saved looks the same in all later stores that hold the copies as they were. -/
theorem capture_spec {r : NodeRef} (hs : s.WellFormed) (hr : s.Has (.node r))
    (hacyclic : Acyclic s.parts (.node r)) (hplain : s.PlainTuples (.node r)) :
    ∃ saved s₁, capture r s = .ok saved s₁ ∧ s.Extends s₁ ∧ saved.map Prod.fst = s.reachable r ∧
      ∀ t, s.Outlives t → s.Retains s₁ t → ∀ p ∈ saved, SavedAs s t p.1 p.2 := by
  obtain ⟨saved, s₁, hsave, hext, hnames, hcopies⟩ := exists_capture hs hr hacyclic
  refine ⟨saved, s₁, hsave, hext, hnames, fun t ht hkeep p hp => ?_⟩
  have hreach : Reaches s.parts (.node r) (.node p.1) :=
    (mem_reachable.mp (hnames ▸ List.mem_map_of_mem hp)).reaches
  have hhas : s.Has (.node p.1) := hs.has_reached hr hreach
  exact (hcopies p hp).savedAs hs ht hkeep hhas (fun v hv =>
    hs.endsWithin (hs.has_parts hhas v hv) fun b hb => hacyclic b (hreach.trans (hb.of_below hv)))
    fun q hq => hplain q (hreach.trans hq)

/-! ### Saving and putting back beside sealed cells -/

section Sealed

variable {P : Value → Prop} {s₁ : Store}

/-- Whether saved nodes neither are sealed cells nor hold one, and those that were there when the
cells were sealed have their id, type and kind from then. -/
def Saved.Outside (P : Value → Prop) (s₁ : Store) (saved : Saved) : Prop :=
  ∀ p ∈ saved, ¬ P (.node p.1) ∧ (s₁.Has (.node p.1) → (s₁.node p.1).Akin p.2) ∧
    ∀ v ∈ p.2.parts, ¬ P v

theorem Store.Sealed.restore (h : Sealed P s₁ t) {saved : Saved} (hsaved : saved.Outside P s₁) :
    Sealed P s₁ (t.restore saved) := by
  induction saved generalizing t with
  | nil => exact h
  | cons p rest ih =>
    obtain ⟨⟨hp, hakin, hparts⟩, hrest⟩ := List.forall_mem_cons.mp hsaved
    exact ih (h.setNode hp hakin hparts) hrest

theorem keeps_savedNode {r : NodeRef} (hr : ¬ P (.node r)) :
    Keeps (Sealed P s₁) (savedNode r) fun p => Saved.Outside P s₁ [p] := by
  refine .bind .get fun t ht => ?_
  have hparts : ∀ p ∈ (t.node r).parts, ¬ P p := ht.apart _ hr
  refine .bind (keeps_copyValue (hparts _ (t.node r).value_mem_parts)) fun value hvalue => ?_
  refine .bind (keeps_copyValue (hparts _ (t.node r).default_mem_parts)) fun default hdefault => ?_
  refine .pure (List.forall_mem_singleton.mpr ⟨hr, fun hhas => ?_, ?_⟩)
  · exact (ht.outlives.akin r hhas).trans ⟨rfl, rfl, rfl⟩
  · simp only [Node.parts, List.forall_mem_cons]
    refine ⟨hvalue, hdefault, fun p hp => hparts p ?_⟩
    exact List.mem_cons_of_mem _ (List.mem_cons_of_mem _ hp)

theorem keeps_capture {r : NodeRef} (hr : ¬ P (.node r)) :
    Keeps (Sealed P s₁) (capture r) fun saved => saved.Outside P s₁ := by
  refine .bind .get fun t ht => ?_
  have hreach : ∀ q ∈ t.reachable r, ¬ P (.node q) :=
    forall_mem_reachTo (P := fun q => ¬ P (.node q))
      (fun q hq p hp => ht.apart _ hq _ (node_mem_parts_of_mem_heldLast hp))
      (by simp) (List.forall_mem_singleton.mpr hr)
  refine (Keeps.mapM fun q hq => keeps_savedNode (hreach q hq)).mono fun saved hsaved p hp => ?_
  exact hsaved p hp p (List.mem_singleton.mpr rfl)

end Sealed

end LiveTree
