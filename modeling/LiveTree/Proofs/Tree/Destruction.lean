import LiveTree.Proofs.Tree.Evolving
import LiveTree.Proofs.Tree.References

/-! Destroying a wrapper. It goes with all that it holds and leaves the nodes alone, and it is for
good: whatever operations come after, on this or any other wrapper, what has been destroyed stays
destroyed, and everything that is asked of it is refused before anything has been done. -/

namespace LiveTree

variable {σ α : Type}

/-- What can be asked only of a wrapper that has not been destroyed. -/
inductive Demand (notify : Notify σ) [Host] (w : WrapperRef) : ∀ {α : Type}, TreeM σ α → Prop
  | setValue (v : Value) (path : Path) (silent : Bool) :
    Demand notify w (TreeM.setValue notify w v path silent)
  | getValue (path : Path) : Demand notify w (TreeM.getValue w path)
  | reset (silent : Bool) : Demand notify w (TreeM.reset notify w silent)
  | resetDeep (silent : Bool) : Demand notify w (TreeM.resetDeep notify w silent)
  | setEntry (role : Role) (key : String) (r : NodeRef) (silent : Bool) :
    Demand notify w (TreeM.setEntry notify role w key r silent)
  | removeEntry (role : Role) (key : String) (silent : Bool) :
    Demand notify w (TreeM.removeEntry notify role w key silent)
  | getMetadata (key : String) : Demand notify w (TreeM.getMetadata w key)
  | getConstraint (key : String) : Demand notify w (TreeM.getConstraint w key)
  | validate : Demand notify w (TreeM.validate w)
  | validateDeep : Demand notify w (TreeM.validateDeep w)
  | addChild (key : String) (r : NodeRef) : Demand notify w (TreeM.addChild w key r)
  | removeChild (key : String) : Demand notify w (TreeM.removeChild w key)
  | subscribe (listener : ℕ) (filter : Option PathFilter) :
    Demand notify w (TreeM.subscribe w listener filter)
  | emitChange (path : Path) : Demand notify w (TreeM.emitChange notify w path)
  | batch {α : Type} (body : TreeM σ α) : Demand notify w (TreeM.batch notify w body)
  | transaction {α : Type} (body : TreeM σ α) : Demand notify w (TreeM.transaction w body)
  | snapshot : Demand notify w (TreeM.snapshot w)

/-- A check of a destroyed wrapper fails, and so does everything that begins with it. -/
theorem TreeM.checkAlive_bind_of_destroyed {w : WrapperRef} {x : World σ}
    (h : (x.forest.wrapper w).destroyed = true) (k : Unit → TreeM σ α) :
    (checkAlive w >>= k) x = .error (.destroyed (x.forest.nodeAt w).id) x := by
  refine bind_of_error ?_ k
  rw [checkAlive, forest_bind, if_pos h]
  rfl

/-- What is asked of a destroyed wrapper is refused, and nothing else happens. -/
theorem Demand.refused [Host] {notify : Notify σ} {w : WrapperRef} {m : TreeM σ α}
    (hm : Demand notify w m) {x : World σ} (h : (x.forest.wrapper w).destroyed = true) :
    m x = .error (.destroyed (x.forest.nodeAt w).id) x := by
  cases hm <;> exact TreeM.checkAlive_bind_of_destroyed h _

namespace Forest

variable {f : Forest} {w : WrapperRef}

/-- Destroying a wrapper leaves all cells alone and destroys the wrapper and all that it holds, which
have no parent, keep no wrappers and have no subscribers from then on. And it is for good: whatever
operations come after, everything that is asked of one of them is refused before anything has been
done. -/
theorem destroy_for_good [Host] (hf : f.Arises true) (hw : w.index < f.wrappers.size) :
    (f.destroy w).store = f.store ∧
      (∀ v, f.Holds w v → ((f.destroy w).wrapper v).destroyed = true ∧
        ((f.destroy w).wrapper v).parent = none ∧ ((f.destroy w).wrapper v).cache = ∅ ∧
        ((f.destroy w).wrapper v).subscribers = []) ∧
      ∀ v, f.Holds w v → ∀ g, (f.destroy w).Evolves (fun _ _ => True) true g →
        ∀ (notify : Notify σ) (user : σ) {α : Type} (m : TreeM σ α), Demand notify v m →
          m ⟨g, user⟩ = .error (.destroyed (g.nodeAt v).id) ⟨g, user⟩ := by
  obtain ⟨hself, hthorough⟩ := thorough_destroy hf.kept hw
  have hall : ∀ v, f.Holds w v → (f.destroy w).wrapper v = (f.wrapper v).detached := fun v hv =>
    hv.detached hthorough hself
  refine ⟨(fades_destroy f w).store, fun v hv => ?_, fun v hv g hg notify user α m hm =>
    hm.refused ?_⟩
  · rw [hall v hv]
    exact ⟨rfl, rfl, rfl, rfl⟩
  · refine (hg.ages (hf.destroyed rfl w)).destroyed v ?_
    rw [hall v hv]
    rfl

/-- The form under a wrapper, with wrappers kept for its address and for the city. -/
def toldForm : Forest := (wrappedForm.descend ⟨0⟩ ["address", "city"]).2

/-- The address is destroyed and asked for again; the city stays destroyed. -/
theorem toldForm_destroyed : (toldForm.destroy ⟨1⟩).store = toldForm.store ∧
    ((toldForm.destroy ⟨1⟩).wrapper ⟨2⟩).destroyed = true ∧
    TreeM.addChild ⟨2⟩ "street" Builtin.lit ⟨((toldForm.destroy ⟨1⟩).child ⟨0⟩ "address").2, ()⟩ =
      .error (.destroyed "city") ⟨((toldForm.destroy ⟨1⟩).child ⟨0⟩ "address").2, ()⟩ := by
  let _ := Host.none
  have harises : toldForm.Arises true := (wrappedForm_arises true).descend (by decide) _
  have hheld : toldForm.Holds ⟨1⟩ ⟨2⟩ := .step .refl
    (by decide : (toldForm.wrapper ⟨1⟩).cache.get? "city" = some ⟨2⟩)
  obtain ⟨hstore, hdestroyed, hrefused⟩ :=
    destroy_for_good (w := ⟨1⟩) (σ := Unit) harises (by decide)
  have hasked : (toldForm.destroy ⟨1⟩).Evolves (fun _ _ => True) true
      ((toldForm.destroy ⟨1⟩).child ⟨0⟩ "address").2 := .asked (.refl _) (by decide) "address"
  exact ⟨hstore, (hdestroyed _ hheld).1,
    hrefused _ hheld _ hasked (fun _ _ => pure ()) () _ (.addChild "street" Builtin.lit)⟩

end Forest

end LiveTree
