import LiveTree.Proofs.Reads.Copies
import LiveTree.Proofs.Reads.Everywhere
import LiveTree.Proofs.Reads.SeatReports
import LiveTree.Tree.Show

/-! Reads of clones. A clone is a new root with the copy of a tree and the same registry. Its seat
goes with that of the wrapper that has been cloned, so the snapshot and the report on the subtree are
worked out in step, on a tree and on its copy. -/

namespace LiveTree

variable {σ α β : Type} {x y z : World σ} {w c : WrapperRef} {r q : NodeRef} {g : Registry}

/-! ### New roots -/

/-- Whether a wrapper is a root as it has been made, with standard operators. -/
structure World.NewRoot (x : World σ) (w : WrapperRef) (r : NodeRef) (g : Registry) : Prop where
  arises : x.forest.Arises true
  made : w.index < x.forest.wrappers.size
  fresh : x.forest.wrapper w = .ofNode r (some g)
  standard : g.IsStandard

/-- The seat of a new root. -/
def Seat.top (r : NodeRef) (g : Registry) : Seat := ⟨r, r, [(r, none)], some g⟩

theorem Seat.top_standard (hg : g.IsStandard) : (Seat.top r g).Standard := by
  rintro _ ⟨⟩
  exact hg

/-- The registries at and below a new root. -/
def Registry.atTop (g : Registry) : Path → Option Registry
  | [] => some g
  | _ :: _ => none

namespace World.NewRoot

variable (h : x.NewRoot w r g)

include h

theorem parent_eq : (x.forest.wrapper w).parent = none := by rw [h.fresh]; rfl

theorem ancestors_eq : x.forest.ancestors w = [] := Forest.ancestors_eq_nil h.parent_eq

theorem registry_eq : x.forest.registry w = some g := by
  rw [Forest.registry, h.ancestors_eq, List.findSome?_cons, h.fresh]
  rfl

/-- A new root keeps no wrappers, so it is seated by itself. -/
theorem seated : x.Seated w (.top r g) g.atTop where
  arises := h.arises
  made := h.made
  thrives := by
    rintro _ _ (_ | ⟨hkept, -, -⟩)
    · rw [h.fresh]
      rfl
    · rw [h.fresh] at hkept
      cases hkept
  seat := by
    have hroot : x.forest.root w = w := by
      rw [Forest.root, h.ancestors_eq]
      rfl
    simp only [Forest.seat, h.registry_eq, h.ancestors_eq, hroot, List.map_cons, List.map_nil,
      h.fresh]
    rfl
  registries := by
    funext p
    cases p with
    | nil =>
      rw [Forest.own, h.fresh]
      rfl
    | cons key rest =>
      rw [Forest.own, h.fresh]
      rfl
  standard := Seat.top_standard h.standard
  ownStandard p g' hg := by
    cases p with
    | nil =>
      cases hg
      exact h.standard
    | cons => cases hg

end World.NewRoot

/-- The seats of new roots for nodes that belong together go together. -/
theorem Seat.paired_top {C : Correspondence} {s : Store} (h : C.Paired s r q) (hg : g.IsStandard) :
    (Seat.top r g).Paired C s (.top q g) where
  node := h
  root := h
  known := .cons ⟨h, .none⟩ .nil
  registry := rfl
  standard := Seat.top_standard hg

/-! ### Reads that agree -/

/-- Whether two operations have come to related results, seen in the stores that they have left, or to
the same fault. -/
inductive TreeM.Agreed (R : Store → Store → α → β → Prop) :
    EStateM.Result Fault (World σ) α → EStateM.Result Fault (World σ) β → Prop
  | ok {a : α} {b : β} {y z : World σ} (h : R y.forest.store z.forest.store a b) :
    Agreed R (.ok a y) (.ok b z)
  | error (e : Fault) (y z : World σ) : Agreed R (.error e y) (.error e z)

namespace TreeM.Renders

variable {m : TreeM σ α} {m' : TreeM σ β} {e : EvalM α} {e' : EvalM β}

/-- Operations that do what computations do agree if these stay in step. -/
theorem agreed {C : Correspondence} {R : Store → α → β → Prop} {S : Store → Store → α → β → Prop}
    (h : Renders w m e x) (h' : Renders c m' e' y)
    (hstep : C.InStep x.forest.store R (e x.forest.store) (e' y.forest.store))
    (hRS : ∀ s t a b, C.stores s t → R s a b → S s t a b) : Agreed S (m x) (m' y) := by
  have h : Rendered w x (m x) (e x.forest.store) := h
  have h' : Rendered c y (m' y) (e' y.forest.store) := h'
  generalize m x = o at h ⊢
  generalize m' y = o' at h' ⊢
  generalize e x.forest.store = p at h hstep
  generalize e' y.forest.store = p' at h' hstep
  cases hstep with
  | done _ hst hR =>
    cases h
    cases h'
    exact .ok (hRS _ _ _ _ hst hR)
  | failed =>
    cases h
    cases h'
    exact .error _ _ _

end TreeM.Renders

namespace World.NewRoot

variable [Host] {R : Value → Value → Prop} (hx : x.NewRoot w r g) (hy : y.NewRoot c q g)
  (hR : Counterparts R x.forest.store y.forest.store) (hrq : R (.node r) (.node q))
  (hs : x.forest.store.WellFormed) (hr : x.forest.store.Grounded (.node r))
  (hnodes : x.forest.store.nodes.size ≤ y.forest.store.nodes.size)

include hx hy hR hrq hs hr hnodes

/-- Snapshots at counterparts look the same. -/
theorem snapshots_agree : TreeM.Agreed Alike (TreeM.snapshot w x) (TreeM.snapshot c y) := by
  let C := Correspondence.parallel R x.forest.store y.forest.store
  have hC : C.Stocked :=
    { toLawful := parallel_lawful hR
      has := fun hst hq => hst.has hR hq }
  have hpaired : (Seat.top r g).Paired C x.forest.store (.top q g) :=
    Seat.paired_top (.known hrq) hx.standard
  have hend : EndsWithin x.forest.store.held (x.forest.store.nodes.size + 1) r :=
    Store.endsWithin_nodes_of_parts (hr.ends hs)
  have hmargin : 1 ≤ TreeM.visitMargin := by decide
  have htracks := hpaired.snapshotTo hC hx.seated.ownStandard
    (fun s hs' => hr.endsWithin_held hs hs'.cells hend) (Nat.add_le_add_left hmargin _)
    (Nat.add_le_add hnodes hmargin)
  exact (TreeM.Renders.snapshot hx.seated).agreed (TreeM.Renders.snapshot hy.seated)
    (htracks _ _ (.refl _) (.start hR)) fun _ _ _ _ hst hv => hst.mates.alike hv

/-- Reports on the subtrees of counterparts are the same. -/
theorem reports_agree :
    TreeM.Agreed (fun _ _ m m' => m' = m) (TreeM.validateDeep w x) (TreeM.validateDeep c y) := by
  let C := Correspondence.parallel R x.forest.store y.forest.store
  have hC : C.Lawful := parallel_lawful hR
  have hpaired : (Seat.top r g).Paired C x.forest.store (.top q g) :=
    Seat.paired_top (.known hrq) hx.standard
  have hend : EndsWithin x.forest.store.held (x.forest.store.nodes.size + 1) r :=
    Store.endsWithin_nodes_of_parts (hr.ends hs)
  have hend' : EndsWithin y.forest.store.held (y.forest.store.nodes.size + 1) q :=
    Store.endsWithin_nodes_of_parts (hR.ends_mate hrq (hR.ends hrq))
  have hmargin : 1 ≤ TreeM.visitMargin := by decide
  have hpaths : y.forest.store.pathsTo (y.forest.store.nodes.size + TreeM.visitMargin) q =
      x.forest.store.pathsTo (x.forest.store.nodes.size + TreeM.visitMargin) r :=
    hC.pathsTo_eq (.start hR) (.known hrq) hend (Nat.add_le_add_left hmargin _)
      (Nat.add_le_add hnodes hmargin)
  have hrenders := TreeM.Renders.validateDeep hy.seated
    (hend'.mono (Nat.add_le_add_left hmargin _))
  rw [show (Seat.top q g).node = q from rfl, hpaths] at hrenders
  have htracks := hpaired.reportEach hC hx.seated.ownStandard ∅
    (x.forest.store.pathsTo (x.forest.store.nodes.size + TreeM.visitMargin) r)
  exact (TreeM.Renders.validateDeep hx.seated (hend.mono (Nat.add_le_add_left hmargin _))).agreed
    hrenders (htracks _ _ (.refl _) (.start hR)) fun _ _ _ _ _ hm => hm

end World.NewRoot

/-! ### Clones -/

/-- Cloning a new root gives another for the copy. -/
theorem World.NewRoot.clone_eq (hx : x.NewRoot w r g) {t : Store}
    (hcopy : copyNode r x.forest.store = .ok q t) :
    ∃ c y, TreeM.clone w x = .ok c y ∧ y.forest.store = t ∧ y.NewRoot w r g ∧ y.NewRoot c q g := by
  have hnode : (x.forest.wrapper w).node = r := by
    rw [hx.fresh]
    rfl
  have hbefore : (x.withStore t).NewRoot w r g := ⟨hx.arises.store t, hx.made, hx.fresh, hx.standard⟩
  have hrun := TreeM.clone_eq (hnode.symm ▸ hcopy)
  rw [hbefore.registry_eq] at hrun
  have harises := hbefore.arises.wrap q (some g)
  have hsize : x.forest.wrappers.size < x.forest.wrappers.size + 1 := Nat.lt_succ_self _
  refine ⟨_, _, hrun, rfl, ⟨harises, ?_, ?_, hx.standard⟩, ⟨harises, ?_, ?_, hx.standard⟩⟩
  · exact Nat.lt_of_lt_of_eq (Nat.lt_succ_of_lt hx.made) (Forest.size_allocWrapper _ _).symm
  · exact (Forest.wrapper_allocWrapper_of_ne _ _ (Nat.ne_of_lt hx.made)).trans hx.fresh
  · exact Nat.lt_of_lt_of_eq hsize (Forest.size_allocWrapper _ _).symm
  · exact Forest.wrapper_allocWrapper_self _ _

/-- A clone of a new root reads like it: as long as what is below is a tree that has not been evaluated
yet, snapshots of both look the same and the reports on both subtrees are the same, if they do not end
in the same fault; it makes no difference whether the root is read before or after it is cloned. -/
theorem clone_reads [Host] (hx : x.NewRoot w r g) (hs : x.forest.store.WellFormed)
    (horders : x.forest.store.argOrders.size = x.forest.store.nodes.size)
    (htree : x.forest.store.IsTree r) :
    ∃ c y, TreeM.clone w x = .ok c y ∧ ∀ z, z = x ∨ z = y →
      TreeM.Agreed Alike (TreeM.snapshot w z) (TreeM.snapshot c y) ∧
        TreeM.Agreed (fun _ _ m m' => m' = m) (TreeM.validateDeep w z) (TreeM.validateDeep c y) := by
  obtain ⟨q, t, hcopy, hdup⟩ := exists_duplicate hs htree horders
  obtain ⟨c, y, hrun, rfl, hw, hc⟩ := hx.clone_eq hcopy
  have hR := hdup.counterparts
  have hrq : x.forest.store.Copied y.forest.store r q (.node r) (.node q) :=
    .placed (p := []) rfl rfl
  refine ⟨c, y, hrun, ?_⟩
  rintro z (rfl | rfl)
  · exact ⟨hx.snapshots_agree hc hR hrq hs htree.grounded hdup.extend.outlives.nodes_le,
      hx.reports_agree hc hR hrq hs htree.grounded hdup.extend.outlives.nodes_le⟩
  · have hR := hR.extend hdup.extend (Nat.le_refl _) hdup.orders_later hdup.order
    have hr := htree.grounded.extend hs hdup.extend
    exact ⟨hw.snapshots_agree hc hR hrq hdup.wellFormed_later hr (Nat.le_refl _),
      hw.reports_agree hc hR hrq hdup.wellFormed_later hr (Nat.le_refl _)⟩

theorem Store.invoice_isTree : invoice.IsTree ⟨13⟩ := by
  have hgrounded : invoice.Grounded (.node ⟨13⟩) := invoice_grounded (by decide)
  have htuples : ∀ a, ¬ Reaches invoice.parts (.node ⟨13⟩) (.tuple a) := fun a ha =>
    absurd (invoice_wellFormed.has_reached hgrounded.has ha) (Nat.not_lt_zero _)
  -- all types are built in, and these refer to each other only
  have htyped : ∀ u, invoice.Typed ⟨13⟩ u → u.cell? = none ∨ ∃ i < 8, u = .node ⟨i⟩ := by
    rintro u ⟨q, hq, hu⟩
    have htypes : ∀ i < 14, (invoice.node ⟨i⟩).type.index < 8 := by decide
    have hbuiltin : ∀ i < 8, ∀ p ∈ invoice.links (.node ⟨i⟩),
        p.cell? = none ∨ ∃ j < 8, p.cell? = some (.node ⟨j⟩) := by decide
    refine hu.closed (P := fun u => u.cell? = none ∨ ∃ i < 8, u = .node ⟨i⟩)
      (.inr ⟨_, htypes q.index (invoice_wellFormed.has_reached hgrounded.has hq), rfl⟩) ?_
    rintro v - (hscalar | ⟨i, hi, rfl⟩) p hp
    · have hlinks : invoice.links v = [] := by cases v <;> first | rfl | cases hscalar
      rw [hlinks] at hp
      cases hp
    · refine (hbuiltin i hi p hp).imp_right fun ⟨j, hj, hcell⟩ => ⟨j, hj, ?_⟩
      exact Value.eq_of_cell?_eq hcell rfl
  have hcensus : ∀ u ∈ invoice.censusTo 7 (.node ⟨13⟩),
      u.cell? ≠ none ∧ ∀ i < 8, u.cell? ≠ some (.node ⟨i⟩) := by decide
  have horders : invoice.argOrders = Array.replicate 14 none := rfl
  refine isTree_of_census (n := 7) hgrounded (by decide) htuples ?_ (fun u hu hty => ?_) ?_
  · exact List.Nodup.of_map Value.cell? (by decide)
  · obtain ⟨hcell, hnode⟩ := hcensus u hu
    rcases htyped u hty with hscalar | ⟨i, hi, rfl⟩
    exacts [hcell hscalar, hnode i hi rfl]
  · intro q _
    rw [argOrder, horders, Array.getD_eq_getD_getElem?, Array.getElem?_replicate]
    split <;> rfl

set_option maxRecDepth 4000 in
theorem invoice_clone_reads : ∃ c y m z,
    @TreeM.clone Unit ⟨0⟩ (invoiceWorld ⟨13⟩) = .ok c y ∧
      @TreeM.validateDeep Unit Host.none c y = .ok m z ∧
        m.get? "amount" = some (.ofList [("some", "Nothing yet")]) := by
  have hroot : (invoiceWorld ⟨13⟩).NewRoot ⟨0⟩ ⟨13⟩ .standard :=
    ⟨(Forest.Arises.start .invoice).wrap ⟨13⟩ _, Nat.zero_lt_one, rfl, Registry.get?_standard⟩
  obtain ⟨c, y, hclone, hreads⟩ := @clone_reads Unit (invoiceWorld ⟨13⟩) ⟨0⟩ ⟨13⟩ .standard Host.none
    hroot Store.invoice_wellFormed rfl Store.invoice_isTree
  obtain ⟨m, z, hrun, hm⟩ : ∃ m z, @TreeM.validateDeep Unit Host.none ⟨0⟩ (invoiceWorld ⟨13⟩) =
      .ok m z ∧ m.get? "amount" = some (.ofList [("some", "Nothing yet")]) := ⟨_, _, rfl, rfl⟩
  have hagreed := (hreads _ (.inl rfl)).2
  rw [hrun] at hagreed
  generalize ho : @TreeM.validateDeep Unit Host.none c y = o at hagreed
  cases hagreed with
  | ok hsame => exact ⟨c, y, m, _, hclone, hsame ▸ ho, hm⟩

end LiveTree
