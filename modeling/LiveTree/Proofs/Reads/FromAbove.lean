import LiveTree.Proofs.Reads.Seats
import LiveTree.Proofs.Tree.Navigation
import LiveTree.Proofs.Tree.References

/-! Values read from above. A wrapper can read the value of a node below it by path, and the wrapper
of that node can read it directly. Both read the same node, with the same root and the same parents,
but each with the registry that it sees itself: by path, a registry that has been set below the
wrapper that was asked is passed over. Where both see the same registry, or both see none, they come
to the same. -/

namespace LiveTree

variable {σ : Type}

/-- A wrapper that leads to another sees the same registry as long as none has been set in
between. -/
theorem Forest.Leads.registry_eq {f : Forest} {w v : WrapperRef} {p : Path} (h : f.Leads w p v)
    (ho : f.Ordered)
    (hnone : ∀ a ∈ (v :: f.ancestors v).take p.length, (f.wrapper a).registry = none) :
    f.registry v = f.registry w := by
  obtain ⟨between, hlength, e⟩ := h.exists_ancestors ho
  rw [e, ← hlength, List.take_left] at hnone
  rw [registry, registry, e]
  clear e hlength
  induction between with
  | nil => rfl
  | cons a rest ih =>
    obtain ⟨ha, hrest⟩ := List.forall_mem_cons.mp hnone
    rw [List.cons_append, List.findSome?_cons, ha]
    exact ih hrest

namespace TreeM

variable {x y : World σ} {w v : WrapperRef} {p : Path}

/-- The context for a wrapper, as another one under the same root gives it, is that of the wrapper's
seat with the other's registry. -/
theorem Means.context_of_root (hroot : x.forest.root w = x.forest.root v) :
    Means x (TreeM.context w v)
      { x.forest.seat v with registry := x.forest.registry w : Seat }.context := by
  intro t
  have hseats : (x.forest.seat w).root = (x.forest.seat v).root :=
    congrArg (fun r => (x.forest.wrapper r).node) hroot
  rw [← x.seat_withStore t v, ← x.seat_withStore t w] at hseats
  have hgiven : TreeM.context w v (x.withStore t) = TreeM.eval
      { (x.withStore t).forest.seat v with
        root := ((x.withStore t).forest.seat w).root
        registry := ((x.withStore t).forest.seat w).registry : Seat }.context (x.withStore t) := by
    simp only [TreeM.context, TreeM.forest_bind, Seat.context, Forest.seat]
    cases (x.withStore t).forest.registry w <;> rfl
  rw [hgiven, hseats, x.seat_withStore t v, x.seat_withStore t w]
  rfl

variable [Host]

/-- Reading a value by path is reading at the seat of the wrapper that the path leads to, with the
registry that the asked wrapper sees. -/
theorem getValue_of_descend (hlive : (x.forest.wrapper w).destroyed = false)
    (hget : descend w p x = .ok (some v) y) (hroot : y.forest.root w = y.forest.root v) :
    getValue w p x =
      TreeM.eval { y.forest.seat v with registry := y.forest.registry w : Seat }.value y := by
  rw [getValue, bind_of_ok (checkAlive_of_live hlive), bind_of_ok hget]
  exact (Means.context_of_root hroot).bind (fun c => Means.readNode c c.current) y.forest.store

/-- In every forest that a program can come to without destroying wrappers on request, a value read
by path is read of the node that the path leads to, in its place, with the registry that the asked
wrapper sees, or fails if it sees none. The wrapper of that node reads the same value or fails with
the same fault, whether before or after the wrapper has been asked for, if it sees the same registry
or if neither sees any, as it does where no wrapper below the asked one has a registry of its own. -/
theorem getValue_from_above (h : x.forest.Arises false) (hw : w.index < x.forest.wrappers.size)
    (hlive : (x.forest.wrapper w).destroyed = false) (hget : descend w p x = .ok (some v) y) :
    getValue w p x =
        TreeM.eval { y.forest.seat v with registry := y.forest.registry w : Seat }.value y ∧
      (y.forest.registry v = y.forest.registry w →
        getValue w p x = getValue v [] y ∧ getValue w p y = getValue v [] y) ∧
      ((∀ a ∈ (v :: y.forest.ancestors v).take p.length, (y.forest.wrapper a).registry = none) →
        y.forest.registry v = y.forest.registry w) := by
  obtain ⟨f, u⟩ := x
  obtain ⟨g, hforest, rfl⟩ : ∃ g, f.descend w p = (some v, g) ∧ y = ⟨g, u⟩ := by
    cases hd : f.descend w p with
    | mk target g =>
      have hrun : descend w p (⟨f, u⟩ : World σ) = .ok target ⟨g, u⟩ := by
        show EStateM.Result.ok (f.descend w p).1 _ = _
        rw [hd]
      cases hrun.symm.trans hget
      exact ⟨g, rfl, rfl⟩
  obtain ⟨hlive', -, -, -, hroot, hagain⟩ := Forest.descend_navigates h hw hlive hforest
  obtain ⟨halong, hkept, hbeyond, -⟩ := h.kept.descend hw hforest
  have hleads : g.Leads w p v := halong.leads hkept (by simpa [hforest] using (h.descend hw p).lively)
  have hstill : (g.wrapper w).destroyed = false := by
    obtain ⟨cache, e⟩ := hbeyond.self
    rw [e]
    exact hlive
  have hget' : descend w p (⟨g, u⟩ : World σ) = .ok (some v) ⟨g, u⟩ := by
    show EStateM.Result.ok (g.descend w p).1 _ = _
    rw [hagain]
  have hbefore := getValue_of_descend hlive hget hroot.symm
  have hafter := getValue_of_descend hstill hget' hroot.symm
  refine ⟨hbefore, fun hregistry => ?_, hleads.registry_eq hkept.toOrdered⟩
  have hseat : { g.seat v with registry := g.registry w : Seat } = g.seat v := by
    rw [← hregistry]
    rfl
  have hdirect : getValue v [] ⟨g, u⟩ = TreeM.eval (g.seat v).value ⟨g, u⟩ :=
    Means.getValue (x := ⟨g, u⟩) hlive' g.store
  rw [hbefore, hafter, hdirect, hseat]
  exact ⟨rfl, rfl⟩

end TreeM

/-- The tally after a program has been at the sum, with a registry set at the root or at the sum. -/
def lentTally (atRoot atSum : Option Registry) : World Unit where
  forest :=
    (((Forest.mk tally.forest.store #[]).allocWrapper (.ofNode ⟨15⟩ atRoot)).2.descend ⟨0⟩
      ["total"]).2.modifyWrapper ⟨1⟩ fun x => { x with registry := atSum }
  user := ()

theorem lentTally_arises (atRoot atSum : Option Registry) :
    (lentTally atRoot atSum).forest.Arises false := by
  have hstart : (Forest.mk tally.forest.store #[]).Arises false := .start _
  have hvisited := (hstart.wrap ⟨15⟩ atRoot).descend (w := ⟨0⟩) Nat.one_pos ["total"]
  have hplace : ∀ x : Wrapper, x.SamePlace { x with registry := atSum } := fun _ =>
    ⟨rfl, rfl, rfl, rfl, rfl⟩
  exact hvisited.tuned (g := fun x => { x with registry := atSum }) ⟨1⟩ (hplace _)

theorem lentTally_from_above : ∃ z,
    @TreeM.getValue Unit Host.none ⟨0⟩ ["total"] (lentTally (some .standard) none) =
        .ok (.int 3) z ∧
      @TreeM.getValue Unit Host.none ⟨1⟩ [] (lentTally (some .standard) none) = .ok (.int 3) z := by
  obtain ⟨-, hsame, hregistry⟩ := @TreeM.getValue_from_above Unit
    (lentTally (some .standard) none) (lentTally (some .standard) none) ⟨0⟩ ⟨1⟩ ["total"] Host.none
    (lentTally_arises _ _) (by decide) rfl rfl
  have hread : ∃ z, @TreeM.getValue Unit Host.none ⟨1⟩ [] (lentTally (some .standard) none) =
      .ok (.int 3) z := ⟨_, rfl⟩
  obtain ⟨z, hz⟩ := hread
  refine ⟨z, ((hsame (hregistry ?_)).1).trans hz, hz⟩
  intro a ha
  obtain rfl := List.mem_singleton.mp ha
  rfl

/-- With a registry at the sum only, reading it by path from the root fails, and its own wrapper
reads it. -/
theorem lentTally_registry_below :
    (lentTally none (some .standard)).forest.Arises false ∧
      ((lentTally none (some .standard)).forest.wrapper ⟨0⟩).destroyed = false ∧
      TreeM.descend ⟨0⟩ ["total"] (lentTally none (some .standard)) =
        .ok (some ⟨1⟩) (lentTally none (some .standard)) ∧
      @TreeM.getValue Unit Host.none ⟨0⟩ ["total"] (lentTally none (some .standard)) =
        .error .noRegistry (lentTally none (some .standard)) ∧
      ∃ z, @TreeM.getValue Unit Host.none ⟨1⟩ [] (lentTally none (some .standard)) =
        .ok (.int 3) z :=
  ⟨lentTally_arises _ _, rfl, rfl, rfl, _, rfl⟩

end LiveTree
