import LiveTree.Proofs.Form.Written
import LiveTree.Proofs.Tree.Operation

/-! Failed transactions. What a transaction saves at its start consists of cells that its body is
never handed, so they are sealed while the body runs. When the body fails, every node that was
reached is put back: it has the maps that it had, and a value and default that look as they did. -/

namespace LiveTree

open Store

/-- A forest without dangling references. -/
structure Forest.WellFormed (f : Forest) : Prop where
  store : f.store.WellFormed
  has_node : ∀ w, f.store.Has (.node (f.wrapper w).node)

/-- Whether a node of a later store has the maps that it had in an earlier one, and what looks like
the value and default that it had. -/
structure Restored (s t : Store) (r : NodeRef) : Prop where
  entries : ∀ role, (t.node r).entries role = (s.node r).entries role
  value : Alike s t (s.node r).value (t.node r).value
  default : Alike s t (s.node r).default (t.node r).default

namespace Forest

variable (f : Forest)

theorem store_destroyTo (n : ℕ) (w : WrapperRef) : (destroyTo n w f).store = f.store :=
  destroyTo_closed (P := fun g => g.store = f.store) (fun _ _ hg => hg) n w rfl

theorem store_dropCached (w : WrapperRef) (key : String) :
    (f.dropCached w key).store = f.store := by
  rw [dropCached]
  split
  · rfl
  · exact store_destroyTo _ _ _

theorem store_syncCache (w : WrapperRef) : (f.syncCache w).store = f.store :=
  syncCacheTo_closed (P := fun g => g.store = f.store)
    (fun g v key hg => (g.store_dropCached v key).trans hg) _ w rfl

end Forest

variable {σ α ν : Type} {s s₁ t : Store}

/-! ### What was saved -/

section Saved

variable {root : NodeRef}

/-- A node without cycles, all of whose nodes have been put back, looks the same as before. -/
theorem alike_of_restored (hs : s.WellFormed) (hst : s.Outlives t)
    (hback : ∀ r, s.ReachesNode root r → Restored s t r) {n : ℕ} {r : NodeRef}
    (hr : s.Has (.node r)) (hreach : s.ReachesNode root r) (hend : EndsWithin s.parts n (.node r)) :
    Alike s t (.node r) (.node r) := by
  induction n generalizing r with
  | zero => exact hend.elim
  | succ n ih =>
    obtain ⟨hentries, hvalue, hdefault⟩ := hback r hreach
    have hakin := hst.akin r hr
    have htype : (t.typeOf r).id = (s.typeOf r).id := by
      rw [typeOf, hakin.type]
      exact (hst.akin _ (hs.has_type hr)).id
    refine .node hakin.id htype hakin.kind hvalue hdefault (fun role => by rw [hentries role]) ?_
    intro role
    rw [hentries role, List.forall₂_same]
    intro q hq
    have hpart := (s.node r).entry_mem_parts role hq
    exact ih (hs.has_parts hr _ hpart) (hreach.below (mem_heldLast.mpr ⟨role, hq⟩)) (hend _ hpart)

end Saved

/-! ### Rolling back -/

/-- A transaction whose body fails fails in the same way, with the saved nodes put back. -/
theorem transaction_eq_of_error {w : WrapperRef} {body : TreeM σ α} {x x₁ x₂ : World σ}
    {saved : Saved} {e : Fault} (hlive : (x.forest.wrapper w).destroyed = false)
    (hsave : TreeM.build (capture (x.forest.wrapper w).node) x = .ok saved x₁)
    (hbody : body x₁ = .error e x₂) :
    TreeM.transaction w body x = .error e
      { x₂ with forest := (x₂.forest.modifyStore (·.restore saved)).syncCache w } := by
  rw [TreeM.transaction, bind_of_ok (TreeM.checkAlive_of_live hlive), TreeM.forest_bind,
    bind_of_ok hsave, tryCatch_of_error hbody]
  rfl

/-- A failed transaction leaves no trace in what was reached from its wrapper. For every wrapper
that is not destroyed, on any graph without cycles, saving succeeds; and whatever operations the
body then carries out, on this or other wrappers and with listeners that do the same, as long as
they are not handed the saved copies: if the body fails, the transaction fails in the same way, all
nodes that were reached are as they were, and so is the serialized form. -/
theorem transaction_rolls_back {x : World σ} {w : WrapperRef} (hx : x.forest.WellFormed)
    (hlive : (x.forest.wrapper w).destroyed = false)
    (hacyclic : Acyclic x.forest.store.parts (.node (x.forest.wrapper w).node))
    (hplain : x.forest.store.PlainTuples (.node (x.forest.wrapper w).node)) :
    ∃ saved x₁, TreeM.build (capture (x.forest.wrapper w).node) x = .ok saved x₁ ∧
      ∀ (react : World σ → Nat → List String → List (Operation σ)) (limit : Nat)
        (body : List (Operation σ)) (e : Fault) (x₂ : World σ),
        (∀ x' listener paths, x₁.forest.store.Outlives x'.forest.store →
          Operation.SparesAll x.forest.store x₁.forest.store (react x' listener paths)) →
        Operation.SparesAll x.forest.store x₁.forest.store body →
        Operation.performAll (Operation.reacting react limit) body x₁ = .error e x₂ →
        ∃ y, TreeM.transaction w (Operation.performAll (Operation.reacting react limit) body) x
            = .error e y ∧
          (∀ r, x.forest.store.ReachesNode (x.forest.wrapper w).node r →
            Restored x.forest.store y.forest.store r) ∧
          ∃ d : Data ν, x.forest.store.nodeForm (x.forest.wrapper w).node = .ok d ∧
            y.forest.store.nodeForm (x.forest.wrapper w).node = .ok d := by
  have hs := hx.store
  have hroot := hx.has_node w
  obtain ⟨saved, s₁, hsave, hext, hnames, hsaved⟩ := capture_spec hs hroot hacyclic hplain
  have hopening : TreeM.build (capture (x.forest.wrapper w).node) x =
      .ok saved { x with forest := { x.forest with store := s₁ } } := by
    simp only [TreeM.build, EStateM.run, hsave]
  refine ⟨saved, _, hopening, fun react limit body e x₂ hreact hspares hfail => ?_⟩
  -- the copies stay sealed until the body fails
  have hopened : Guarded x.forest.store s₁ { x.forest with store := s₁ } :=
    ⟨.of_wellFormed hs hext, fun v => not_between_of_has (hx.has_node v)⟩
  have hfailed : Guarded x.forest.store s₁ x₂.forest :=
    (Operation.performAll_leaves (Operation.reacting_leaves hreact limit) body hspares).error
      hopened hfail
  have hmem : ∀ p ∈ saved, x.forest.store.ReachesNode (x.forest.wrapper w).node p.1 := fun p hp =>
    mem_reachable.mp (hnames ▸ List.mem_map_of_mem hp)
  have hhas : ∀ p ∈ saved, x.forest.store.Has (.node p.1) := fun p hp =>
    hs.has_reached hroot (hmem p hp).reaches
  -- so putting the saved nodes back gives a store that has kept the copies
  have hakin : ∀ p ∈ saved, (x₂.forest.store.node p.1).Akin p.2 := fun p hp => by
    have hold := (hext.outlives.trans hfailed.store.outlives).akin p.1 (hhas p hp)
    exact hold.symm.trans (hsaved s₁ hext.outlives (fun v _ => .refl v) p hp).akin
  have houtlives : x.forest.store.Outlives (x₂.forest.store.restore saved) :=
    hext.outlives.trans (hfailed.store.outlives.trans (outlives_restore hakin))
  have hretains : x.forest.store.Retains s₁ (x₂.forest.store.restore saved) := fun v hv =>
    (hfailed.store.retains v hv).trans (agree_restore fun p hp e => hv.1 (e ▸ hhas p hp))
  have hback : ∀ r, x.forest.store.ReachesNode (x.forest.wrapper w).node r →
      Restored x.forest.store (x₂.forest.store.restore saved) r := by
    intro r hr
    obtain ⟨⟨r, n⟩, hp, rfl⟩ := List.mem_map.mp (hnames ▸ mem_reachable.mpr hr)
    have hnode : (x₂.forest.store.restore saved).node r = n := by
      refine node_restore (hnames ▸ nodup_reachable _ _) ?_ hp
      exact (hext.outlives.trans hfailed.store.outlives).has _ (hhas _ hp)
    have hsavedAs := hsaved _ houtlives hretains _ hp
    exact ⟨by rw [hnode]; exact hsavedAs.entries, by rw [hnode]; exact hsavedAs.value,
      by rw [hnode]; exact hsavedAs.default⟩
  refine ⟨_, transaction_eq_of_error hlive hopening hfail, ?_⟩
  simp only [Forest.store_syncCache, Forest.modifyStore]
  refine ⟨hback, ?_⟩
  -- and what looks the same has the same form
  have hend := hs.endsWithin hroot hacyclic
  obtain ⟨d, hd⟩ := exists_form (ν := ν) hend
  refine ⟨d, hd.formTo_eq hend, ?_⟩
  rw [nodeForm, form, (alike_of_restored hs houtlives hback hroot (.refl _) hend).formTo_eq]
  exact hd.formTo_eq (hend.mono (Nat.succ_le_succ houtlives.size_le))

/-- The type of plain nodes under a wrapper, in a forest without other wrappers. -/
def loneWorld : World Unit :=
  { forest := { store := .initial, wrappers := #[.ofNode Builtin.property none] }, user := () }

theorem loneWorld_wellFormed : loneWorld.forest.WellFormed where
  store := initial_wellFormed
  has_node w := by
    obtain ⟨_ | i⟩ := w
    · decide
    · exact (by decide : Store.initial.Has (.node (default : Wrapper).node))

/-- A body that sets a value, adds a child and gives up. -/
def givingUp : List (Operation Unit) :=
  [.setValue ⟨0⟩ (.int 2) [] false, .addChild ⟨0⟩ "a" Builtin.lit, .abort (.aborted "stop")]

theorem givingUp_rolls_back :
    ∃ y, TreeM.transaction ⟨0⟩
        (Operation.performAll (Operation.reacting (fun _ _ _ => []) 1) givingUp) loneWorld
        = .error (.aborted "stop") y ∧
      (∀ r, loneWorld.forest.store.ReachesNode Builtin.property r →
        Restored loneWorld.forest.store y.forest.store r) ∧
      ∃ d : Data Empty, loneWorld.forest.store.nodeForm Builtin.property = .ok d ∧
        y.forest.store.nodeForm Builtin.property = .ok d := by
  have hend : EndsWithin loneWorld.forest.store.parts 2 (.node Builtin.property) := by decide
  obtain ⟨saved, x₁, hsave, hrolls⟩ := transaction_rolls_back (x := loneWorld) (w := ⟨0⟩)
    loneWorld_wellFormed rfl hend.acyclic fun r _ p hp => by
      simp [loneWorld, tuple, Store.initial] at hp
  obtain ⟨rfl, rfl⟩ : _ = saved ∧ _ = x₁ := by
    injection hsave with h₁ h₂
    exact ⟨h₁, h₂⟩
  refine hrolls _ 1 givingUp _ _ (fun _ _ _ _ => trivial) ⟨?_, ?_, ?_, trivial⟩ rfl
  · exact List.forall_mem_singleton.mpr (not_between_of_cell?_eq_none rfl)
  · exact List.forall_mem_singleton.mpr (not_between_of_has (by decide))
  · exact List.forall_mem_nil _

end LiveTree
