import LiveTree.Proofs.Tree.Conduct
import LiveTree.Proofs.Tree.Trails

/-! Wrappers after a failed transaction. Putting nodes back changes what is below wrappers behind
their backs, and a pass over the kept wrappers makes up for it. Afterwards everything that is held by
the transaction's wrapper is alive and stands where it should, what the pass has forgotten is
destroyed with all that it held, and whatever was not touched is still found where it was. What the
body does is taken as what it makes of the forest; every program is of this sort. -/

namespace LiveTree

open Store

variable {σ α : Type}

/-- After a failed transaction, kept wrappers are in line with the nodes again, and none has been
given up without need. Take any wrapper that is not destroyed, stands below a wrapper without a
parent, and has a node without cycles, in a forest in which no wrapper has been destroyed on request,
and any body that does not do so either and adds and removes children among some entries only. If the
body fails, then so does the transaction, and afterwards each wrapper that is held by the
transaction's is alive and wraps what is stored under its key; whatever was kept when the body failed
and is not kept any more is destroyed with all that it held; and a wrapper that was found by a path
just before is alive and still found by it, if all entries on its way from the root were spared. -/
theorem transaction_keeps_wrappers {x : World σ} {root w : WrapperRef} {q : Path}
    (hx : x.forest.WellFormed) (hf : x.forest.Arises false) (hw : w.index < x.forest.wrappers.size)
    (hlive : (x.forest.wrapper w).destroyed = false)
    (hroot : (x.forest.wrapper root).parent = none) (hq : x.forest.Leads root q w)
    (hacyclic : Acyclic x.forest.store.parts (.node (x.forest.wrapper w).node)) :
    ∃ saved x₁, TreeM.build (capture (x.forest.wrapper w).node) x = .ok saved x₁ ∧
      ∀ (edits : NodeRef → String → Prop) (body : TreeM σ α) (e : Fault) (x₂ : World σ),
        body x₁ = .error e x₂ → x₁.forest.Evolves edits false x₂.forest →
        ∃ y, TreeM.transaction w body x = .error e y ∧
          (∀ v k c, y.forest.Holds w v → (y.forest.wrapper v).cache.get? k = some c →
            (y.forest.wrapper c).destroyed = false ∧
              (y.forest.wrapper c).parent = some v ∧ (y.forest.wrapper c).key = some k ∧
              (y.forest.nodeAt v).children.get? k = some (y.forest.wrapper c).node) ∧
          (∀ v k c, (x₂.forest.wrapper v).cache.get? k = some c →
            (y.forest.wrapper v).cache.get? k ≠ some c →
            ∀ d, x₂.forest.Holds c d → (y.forest.wrapper d).destroyed = true) ∧
          ∀ (f₀ : Forest) p c, f₀.Arises false → w.index < f₀.wrappers.size →
            f₀.descend w p = (some c, x.forest) →
            (∀ p₁ key p₂ v, q ++ p = p₁ ++ key :: p₂ → x.forest.Along root p₁ v →
              ¬ edits (x.forest.wrapper v).node key) →
            (y.forest.wrapper c).destroyed = false ∧
              y.forest.descend w p = (some c, y.forest) := by
  obtain ⟨saved, s₁, hsave, hext, -⟩ := exists_capture hx.store (hx.has_node w) hacyclic
  have hopening : TreeM.build (capture (x.forest.wrapper w).node) x =
      .ok saved { x with forest := { x.forest with store := s₁ } } := by
    simp only [TreeM.build, EStateM.run, hsave]
  refine ⟨saved, _, hopening, fun edits body e x₂ hfail hbody => ?_⟩
  refine ⟨_, transaction_eq_of_error hlive hopening hfail, ?_⟩
  -- the transaction as a whole is one step of the forest
  have hstep : x.forest.Evolves edits false
      ((x₂.forest.modifyStore (·.restore saved)).syncCache w) :=
    .rolledBack (.refl _) w hsave hbody
  have hrestored : (x₂.forest.modifyStore (·.restore saved)).Arises false :=
    (hbody.arises (hf.store s₁)).store _
  obtain ⟨hshed, hfresh⟩ := hrestored.kept.syncCache w
  have hlively := (hstep.arises hf).lively
  have hplace := (hstep.arises hf).kept.place
  refine ⟨fun v k c hv hc => ?_, hshed.gone, ?_⟩
  · obtain ⟨hparent, hkey⟩ := hplace v k c hc (hlively v k c hc)
    exact ⟨hlively v k c hc, hparent, hkey, hfresh v hv k c hc⟩
  intro f₀ p c hf₀ hw₀ hget hspared
  have hq := hf.placed.along_of_leads hq
  have hmade := Nat.lt_of_le_of_lt (hq.index_le hf.kept) hw
  have hendures := hstep.endures hf hmade hroot
  have hway := hq.append (hf₀.kept.descend hw₀ hget).1
  have htop := (hendures.trail _ _ (.of_along hq fun p₁ k p₂ v e =>
    hspared p₁ k (p₂ ++ p) v (by rw [e, List.append_assoc, List.cons_append]))).along
  have hbottom := (hendures.trail _ _ (.of_along hway hspared)).along
  refine ⟨?_, (hbottom.from_prefix htop).descend_eq⟩
  rcases List.eq_nil_or_concat (q ++ p) with hnil | ⟨l, k, hlast⟩
  · obtain ⟨rfl, rfl⟩ := List.append_eq_nil_iff.mp hnil
    cases hq
    cases hway
    exact hendures.destroyed.trans hlive
  · rw [hlast, List.concat_eq_append] at hbottom
    obtain ⟨v, -, hkept, -⟩ := hbottom.last_step
    exact hlively v k c hkept

/-- A note is put beside the address and taken away again, the city is changed, and all fails. -/
def scribbling : List (Operation Unit) :=
  [.addChild ⟨0⟩ "note" Builtin.lit, .setValue ⟨2⟩ (.str "Lund") [] false,
    .removeChild ⟨0⟩ "note", .addChild ⟨0⟩ "note" Builtin.lit, .abort (.aborted "stop")]

theorem scribbling_keeps_wrappers : ∃ y, TreeM.transaction ⟨0⟩
      (Operation.performAll (Operation.reacting (fun _ _ _ => []) 1) scribbling)
        ⟨Forest.listeningForm, ()⟩ = .error (.aborted "stop") y ∧
    (y.forest.wrapper ⟨4⟩).destroyed = true ∧
    (y.forest.wrapper ⟨2⟩).destroyed = false ∧
      y.forest.descend ⟨0⟩ ["address", "city"] = (some ⟨2⟩, y.forest) := by
  have harises := Forest.listeningForm_arises false
  have hstart : Forest.listeningForm.Sequel false 3 Forest.listeningForm := ⟨harises,
    ⟨addressForm_orderly, Forest.listeningForm_wellFormed.has_node⟩, .refl _, by decide⟩
  obtain ⟨saved, x₁, hopen, hkeeps⟩ := transaction_keeps_wrappers (α := Unit)
    (x := ⟨Forest.listeningForm, ()⟩) (w := ⟨0⟩) (q := []) Forest.listeningForm_wellFormed harises
    (by decide) rfl (by decide : (Forest.listeningForm.wrapper ⟨0⟩).parent = none) (.here _)
    (by decide : EndsWithin addressForm.parts 4 (.node ⟨10⟩)).acyclic
  -- the notes are the only children that come and go
  have hsaving : Conducts (fun _ key => key = "note") false Forest.listeningForm 3
      (TreeM.build (capture ⟨10⟩) : TreeM Unit Saved) :=
    .build (List.forall_mem_nil _) (.capture _)
  have hopened : Forest.listeningForm.Sequel false 3 x₁.forest :=
    hstart.evolves ((hsaving ⟨Forest.listeningForm, ()⟩ hstart).ok hopen)
  have hfits : Operation.FitsAll (fun _ key => key = "note") false Forest.listeningForm
      scribbling := by
    refine ⟨⟨by decide, rfl, by decide⟩, ?_, ⟨by decide, rfl⟩, ⟨by decide, rfl, by decide⟩,
      nofun, trivial⟩
    rintro w ⟨⟩
    decide
  have hquiet : ∀ f listener paths, Conducts (fun _ key => key = "note") false f f.wrappers.size
      (Operation.reacting (fun (_ : World Unit) _ _ => []) 1 listener paths) := by
    refine Operation.reacting_evolves ?_ 1
    exact fun _ _ _ _ _ => trivial
  have hmoves := Operation.performAll_evolves hquiet Forest.listeningForm scribbling hfits x₁ hopened
  obtain rfl : ⟨Forest.listeningForm, ()⟩ = x₁ := by
    injection hopen
  have hfail : ∃ x₂, Operation.performAll (Operation.reacting (fun _ _ _ => []) 1) scribbling
      ⟨Forest.listeningForm, ()⟩ = .error (.aborted "stop") x₂ ∧
        (x₂.forest.wrapper ⟨0⟩).cache.get? "note" = some ⟨4⟩ := ⟨_, rfl, rfl⟩
  have hback : ∃ y, TreeM.transaction ⟨0⟩
      (Operation.performAll (Operation.reacting (fun _ _ _ => []) 1) scribbling)
        ⟨Forest.listeningForm, ()⟩ = .error (.aborted "stop") y ∧
      (y.forest.wrapper ⟨0⟩).cache.get? "note" = none := ⟨_, rfl, rfl⟩
  obtain ⟨x₂, hfail, hnote⟩ := hfail
  obtain ⟨y, hy, hforgot⟩ := hback
  obtain ⟨y', hy', -, hgone, hlasts⟩ := hkeeps _ _ _ _ hfail (hmoves.error hfail)
  obtain rfl : y = y' := by
    rw [hy] at hy'
    injection hy'
  refine ⟨y, hy, ?_, hlasts Forest.listeningForm ["address", "city"] ⟨2⟩ harises (by decide) rfl ?_⟩
  · exact hgone ⟨0⟩ "note" ⟨4⟩ hnote (by rw [hforgot]; nofun) ⟨4⟩ .refl
  · intro p₁ key p₂ v e _
    have hkey : key ∈ ["address", "city"] := by
      rw [List.nil_append] at e
      rw [e]
      exact List.mem_append_right _ List.mem_cons_self
    have hspared : ∀ k ∈ ["address", "city"], ¬ k = "note" := by decide
    exact hspared key hkey

end LiveTree
