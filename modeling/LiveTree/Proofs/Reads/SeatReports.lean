import LiveTree.Proofs.Reads.Everywhere
import LiveTree.Proofs.Reads.SeatSnapshots

/-! Reports at seats. Validation of a subtree asks for all wrappers in it before it validates them, but
what it reports is fixed by the seat of the upper wrapper and the registries that wrappers below have
of their own: like a snapshot, it can be worked out on the store alone. -/

namespace LiveTree

variable {σ : Type} {s t : Store} {p : Seat} {own : Path → Option Registry}

namespace Seat

variable [Host]

/-- What is found at the seat at a path. -/
def failuresAt (p : Seat) (own : Path → Option Registry) (path : Path) : EvalM Failures := do
  match along (← EvalM.read id) path p own with
  | none => return ∅
  | some q => q.failures

/-- What is reported of some paths, one after another. -/
def reportEach (p : Seat) (own : Path → Option Registry) (m : Entries Failures) :
    List Path → EvalM (Entries Failures)
  | [] => return m
  | path :: rest => do
    let found ← p.failuresAt own path
    reportEach p own (if found.isEmpty then m else m.insert (reportKey path) found) rest

end Seat

/-! ### From reports of wrappers to reports on the store -/

namespace TreeM.Renders

variable [Host] {x : World σ} {w : WrapperRef}

theorem validateEach (h : x.Seated w p own) {l : List (WrapperRef × Path)}
    (hl : ∀ e ∈ l, x.forest.Along w e.2 e.1) (m : Entries Failures) :
    Renders w (TreeM.validateEach m l) (p.reportEach own m (l.map Prod.snd)) x := by
  induction l generalizing x m with
  | nil => exact pure m
  | cons e rest ih =>
    obtain ⟨v, path⟩ := e
    obtain ⟨halong, hrest⟩ := List.forall_mem_cons.mp hl
    have hseat : Seat.along x.forest.store path p own = some (x.forest.seat v) := by
      rw [← h.seat, ← h.registries]
      exact Forest.seat_of_along halong h.arises.kept h.thrives
    have hv := h.along halong hseat
    have hfirst : Renders w (TreeM.validate v) (p.failuresAt own path) x := by
      have hmeans := of_means (w := w) (Means.validate hv.live) hv.standard.failures
      show Rendered w x (TreeM.validate v x) (p.failuresAt own path x.forest.store)
      have hat : p.failuresAt own path x.forest.store =
          (x.forest.seat v).failures x.forest.store := by
        rw [Seat.failuresAt, EvalM.read_bind]
        dsimp only [id]
        rw [hseat]
      rw [hat]
      exact hmeans
    refine hfirst.bind fun found y hb => ?_
    have hnext := fun m => ih (h.roamed hb) (fun e he => hb.along (hrest e he)) m
    split
    · exact hnext m
    · exact hnext _

/-- Validating a subtree does to the store what reporting on its paths does. -/
theorem validateDeep (h : x.Seated w p own)
    (hn : EndsWithin x.forest.store.held (x.forest.store.nodes.size + TreeM.visitMargin) p.node) :
    Renders w (TreeM.validateDeep w) (p.reportEach own ∅
      (x.forest.store.pathsTo (x.forest.store.nodes.size + TreeM.visitMargin) p.node)) x := by
  have hnode : (x.forest.wrapper w).node = p.node := by
    rw [← h.seat]
    rfl
  obtain ⟨l, z, hentries, hgathers⟩ := TreeM.entries_gathers h.arises.placed h.made
    (by rw [hnode]; exact Store.endsWithin_offspring hn)
  have hpaths := hgathers.paths
  rw [hnode] at hpaths
  simp only [List.nil_append, List.map_id'] at hpaths
  have halong : ∀ e ∈ l, z.forest.Along w e.2 e.1 := fun e he => by
    obtain ⟨path, hpath, halong⟩ := hgathers.along e he
    rwa [hpath]
  have heach := validateEach (h.roamed hgathers.roamed) halong ∅
  show Rendered w x (TreeM.validateDeep w x) _
  rw [TreeM.validateDeep, bind_of_ok (TreeM.checkAlive_of_live h.live), bind_of_ok hentries]
  change Rendered w z (TreeM.validateEach ∅ l z) (p.reportEach own ∅ _ z.forest.store) at heach
  rw [hpaths, hgathers.store] at heach
  generalize TreeM.validateEach ∅ l z = o at heach ⊢
  generalize p.reportEach own ∅ _ x.forest.store = o' at heach ⊢
  cases heach with
  | ok hb => exact .ok (hgathers.roamed.trans hb)
  | error => exact .error

end TreeM.Renders

/-! ### Reports on corresponding stores -/

variable {C : Correspondence} {p' : Seat} {k n n' : ℕ}

/-- The paths from nodes that belong together are the same, to whatever depths that the descent does
not exceed. -/
theorem Correspondence.Lawful.pathsTo_eq (hC : C.Lawful) (hst : C.stores s t) {r r' : NodeRef}
    (hr : C.Paired s r r') (hk : EndsWithin s.held k r) (hn : k ≤ n) (hn' : k ≤ n') :
    t.pathsTo n' r' = s.pathsTo n r := by
  induction k generalizing r r' n n' with
  | zero => exact hk.elim
  | succ k ih =>
    obtain ⟨n, rfl⟩ : ∃ m, n = m + 1 := ⟨n - 1, by omega⟩
    obtain ⟨n', rfl⟩ : ∃ m, n' = m + 1 := ⟨n' - 1, by omega⟩
    have hbelow : ∀ {l l' : List (String × NodeRef)},
        List.Forall₂ (fun e e' => e'.1 = e.1 ∧ t.pathsTo n' e'.2 = s.pathsTo n e.2) l l' →
        (l'.flatMap fun e => (t.pathsTo n' e.2).map (e.1 :: ·)) =
          l.flatMap fun e => (s.pathsTo n e.2).map (e.1 :: ·) := by
      intro l l' hl
      induction hl with
      | nil => rfl
      | cons he _ ih => rw [List.flatMap_cons, List.flatMap_cons, he.1, he.2, ih]
    rw [Store.pathsTo, Store.pathsTo]
    refine congrArg _ (hbelow (forall₂_imp_mem ((hC.nodes hst hr).entries .children).pairs
      fun e he _ _ hee' => ⟨hee'.1, ?_⟩))
    exact ih hee'.2 (hk e.2 (Store.mem_held.mpr ⟨.children, List.mem_map_of_mem he⟩))
      (Nat.le_of_succ_le_succ hn) (Nat.le_of_succ_le_succ hn')

namespace Seat.Paired

/-- A path leads to seats that go together, if to any. -/
theorem along (hC : C.Lawful) (hst : C.stores s t) (hp : p.Paired C s p')
    (hown : Seat.OwnStandard own) (path : Path) :
    Option.Rel (fun q q' => q.Paired C s q') (Seat.along s path p own)
      (Seat.along t path p' own) := by
  induction path generalizing p p' own with
  | nil => exact .some hp
  | cons key rest ih =>
    have hchild := ((hC.nodes hst hp.node).entries .children).get? key
    change Option.Rel _ ((s.node p.node).children.get? key)
      ((t.node p'.node).children.get? key) at hchild
    rw [Seat.along, Seat.along]
    generalize (s.node p.node).children.get? key = o at hchild
    generalize (t.node p'.node).children.get? key = o' at hchild
    cases hchild with
    | none => exact .none
    | some hr => exact ih (hp.child hr hown key) fun q => hown (key :: q)

variable [Host]

/-- What is reported of some paths is the same on corresponding stores. -/
theorem reportEach (hC : C.Lawful) (hp : p.Paired C s p') (hown : Seat.OwnStandard own)
    (m : Entries Failures) (paths : List Path) :
    C.Tracks s (fun _ m m' => m' = m) (p.reportEach own m paths) (p'.reportEach own m paths) := by
  induction paths generalizing s m with
  | nil => exact .pure fun _ _ => rfl
  | cons path rest ih =>
    have hat : C.Tracks s (fun _ m m' => m' = m) (p.failuresAt own path)
        (p'.failuresAt own path) := by
      refine .look fun s' t hs ht => ?_
      have hseat := (hp.later hC hs).along hC ht hown path
      generalize Seat.along s' path p own = o at hseat
      generalize Seat.along t path p' own = o' at hseat
      cases hseat with
      | none => exact .pure fun _ _ => rfl
      | some hq => exact hq.failures hC
    refine hat.bind ?_
    rintro s' found _ hs rfl
    exact ih (hp.later hC hs) _

end Seat.Paired

end LiveTree
