import LiveTree.Proofs.Reads.Repeated
import LiveTree.Tree.Show

/-! Reads of whole subtrees, done again: visits, validation of all nodes, snapshots, printing, forms
and comparison. Going down to children is by recursion, which ends as no node comes to lie below
itself; the second run may have more depth to spare. -/

namespace LiveTree

/-- Going down a path is going to the first child and on from there. -/
theorem TreeM.descend_cons {σ : Type} (w : WrapperRef) (key : String) (rest : Path) :
    (TreeM.descend w (key :: rest) : TreeM σ (Option WrapperRef)) =
      TreeM.updateForest (·.child w key) >>= fun o =>
        o.elim (pure none) (TreeM.descend · rest) := by
  funext x
  have hchild : (TreeM.updateForest (·.child w key) : TreeM σ (Option WrapperRef)) x =
      .ok (x.forest.child w key).1 (x.withForest (x.forest.child w key).2) := rfl
  have hdescend : (TreeM.descend w (key :: rest) : TreeM σ (Option WrapperRef)) x =
      .ok (x.forest.descend w (key :: rest)).1
        (x.withForest (x.forest.descend w (key :: rest)).2) := rfl
  rw [bind_of_ok hchild, hdescend, Forest.descend]
  rcases x.forest.child w key with ⟨_ | c, f⟩ <;> rfl

namespace Correspondence.Echoes

variable {σ α β γ δ : Type} {C : Correspondence} {x : World σ} {w : WrapperRef} {n n' : ℕ}

/-- A path leads to the same wrapper again. -/
theorem descend (hC : C.Fit) (hx : C.Ready x) (hw : C.Covers x w) (path : Path) :
    C.Echoes x (fun z o o' => o' = o ∧ ∀ c, o = some c → C.Covers z c) (TreeM.descend w path)
      (TreeM.descend w path) := by
  induction path generalizing x w with
  | nil =>
    refine pure (a := some w) hx ⟨rfl, ?_⟩
    rintro _ ⟨⟩
    exact hw
  | cons key rest ih =>
    rw [TreeM.descend_cons]
    refine (child hC hx hw key).bind ?_
    rintro z _ o hz ⟨rfl, hc⟩
    cases o with
    | none => exact pure hz.ready ⟨rfl, fun _ h => (by cases h)⟩
    | some c => exact ih hz.ready (hc c rfl).1

theorem getValue [Host] (hC : C.Fit) (hx : C.Ready x) (hw : C.Covers x w) (path : Path) :
    C.Echoes x (fun z => C.values z.forest.store) (TreeM.getValue w path)
      (TreeM.getValue w path) := by
  refine (checkAlive hC hx hw).bind fun z _ _ hz _ => ?_
  refine (descend hC hz.ready (hw.later hC hz) path).bind ?_
  rintro z₁ _ o hz₁ ⟨rfl, hfound⟩
  have hw₁ := hw.later hC (hz.trans hz₁)
  cases o with
  | none => exact pure hz₁.ready (hC.scalar _ rfl)
  | some c =>
    refine (context hC hz₁.ready hw₁ (hfound c rfl)).bind ?_
    rintro z₂ c' _ hz₂ ⟨rfl, hc', -⟩
    exact readNode hC hz₂.ready hc' hc'.current

/-! ### Visits -/

/-- Whether something carried along a visit is the same again and as it should be. -/
def Carries (P : World σ → β → Prop) (z : World σ) (step step' : ForInStep β) : Prop :=
  step' = step ∧ P z step.value

section Visits

variable {P : World σ → β → Prop} (hC : C.Fit)
  (hP : ∀ z z' b, C.Follows z z' → P z b → P z' b)

include hC hP

theorem intoChildren {go go' : Visitor σ β}
    (hgo : ∀ z b c path, C.Ready z → C.Covers z c →
      EndsWithin z.forest.store.held n (z.forest.wrapper c).node → P z b →
      C.Echoes z (Carries P) (go b c path) (go' b c path))
    (hx : C.Ready x) (hw : C.Covers x w)
    (hn : EndsWithin x.forest.store.held (n + 1) (x.forest.wrapper w).node) (path : Path)
    (keys : List String) {b : β} (hb : P x b) :
    C.Echoes x (Carries P) (TreeM.intoChildren go w path keys b)
      (TreeM.intoChildren go' w path keys b) := by
  induction keys generalizing x b with
  | nil => exact pure hx ⟨rfl, hb⟩
  | cons key rest ih =>
    refine (child hC hx hw key).bind ?_
    rintro z _ o hz ⟨rfl, hc⟩
    have hwz := hw.later hC hz
    have hnz := hw.endsWithin_later hC hz hn
    have hbz := hP _ _ _ hz hb
    cases o with
    | none => exact ih hz.ready hwz hnz hbz
    | some c =>
      obtain ⟨hcovers, hmem⟩ := hc c rfl
      refine (hgo z b c (path ++ [key]) hz.ready hcovers (hnz _ hmem) hbz).bind ?_
      rintro z' _ step hz' ⟨rfl, hstep⟩
      cases step with
      | done b => exact pure hz'.ready ⟨rfl, hstep⟩
      | yield b => exact ih hz'.ready (hwz.later hC hz') (hwz.endsWithin_later hC hz' hnz) hstep

variable {visit : Visitor σ β} (hvisit : ∀ z b c path, C.Ready z → C.Covers z c → P z b →
  C.Echoes z (Carries P) (visit b c path) (visit b c path))

include hvisit

theorem preOrderTo (hx : C.Ready x) (hw : C.Covers x w)
    (hn : EndsWithin x.forest.store.held n (x.forest.wrapper w).node) (hle : n ≤ n')
    (path : Path) {b : β} (hb : P x b) :
    C.Echoes x (Carries P) (TreeM.preOrderTo visit n b w path)
      (TreeM.preOrderTo visit n' b w path) := by
  induction n generalizing x w n' path b with
  | zero => exact hn.elim
  | succ n ih =>
    obtain ⟨n', rfl⟩ : ∃ m, n' = m + 1 := ⟨n' - 1, by omega⟩
    refine (hvisit x b w path hx hw hb).bind ?_
    rintro z _ step hz ⟨rfl, hstep⟩
    cases step with
    | done b => exact pure hz.ready ⟨rfl, hstep⟩
    | yield b =>
      have hwz := hw.later hC hz
      refine (childKeys hC hz.ready hwz).bind ?_
      rintro z' _ keys hz' rfl
      have hnz := hw.endsWithin_later hC (hz.trans hz') hn
      exact intoChildren hC hP (fun z b c path hz hc hn hb =>
        ih hz hc hn (Nat.le_of_succ_le_succ hle) path hb) hz'.ready (hwz.later hC hz') hnz path keys
        (hP _ _ _ hz' hstep)

theorem preOrder (hx : C.Ready x) (hw : C.Covers x w) {b : β} (hb : P x b) :
    C.Echoes x (fun z b b' => b' = b ∧ P z b) (TreeM.preOrder w b visit)
      (TreeM.preOrder w b visit) := by
  obtain ⟨t, ht⟩ := hx.partner
  refine visitDepth hC hx fun n n' hn hle => ?_
  refine (preOrderTo hC hP hvisit hx hw ((hC.ends ht (hw.knows hC hx)).mono hn) hle [] hb).bind ?_
  rintro z _ step hz ⟨rfl, hstep⟩
  exact pure hz.ready ⟨rfl, hstep⟩

end Visits

section Found

variable (hC : C.Fit) {test : WrapperRef → TreeM σ Bool} (htest : ∀ z c, C.Ready z → C.Covers z c →
  C.Echoes z (fun _ b b' => b' = b) (test c) (test c)) (hx : C.Ready x) (hw : C.Covers x w)

include hC htest hx hw

/-- The wrappers of a subtree that pass a test are the same again. -/
theorem select : C.Echoes x (fun z l l' => l' = l ∧ ∀ p ∈ l, C.Covers z p.1)
    (TreeM.select w test) (TreeM.select w test) := by
  refine preOrder (P := fun z (l : List (WrapperRef × Path)) => ∀ p ∈ l, C.Covers z p.1) hC
    (fun z z' l hz hl p hp => (hl p hp).later hC hz) (fun z l c path hz hc hl => ?_) hx hw
    fun p hp => absurd hp List.not_mem_nil
  refine (htest z c hz hc).bind ?_
  rintro z' _ passes hz' rfl
  refine pure hz'.ready ⟨rfl, fun p hp => ?_⟩
  have hp : p ∈ l ∨ p = (c, path) := by
    cases passes with
    | true => simpa [ForInStep.value] using hp
    | false => exact .inl hp
  rcases hp with hp | rfl
  exacts [(hl p hp).later hC hz', hc.later hC hz']

/-- So is the first of them. -/
theorem find : C.Echoes x (fun _ o o' => o' = o) (TreeM.find w test) (TreeM.find w test) := by
  refine (preOrder (P := fun _ _ => True) hC (fun _ _ _ _ _ => trivial)
    (fun z _ c path hz hc _ => ?_) hx hw trivial).mono fun _ _ _ _ h => h.1
  refine (htest z c hz hc).bind ?_
  rintro z' _ passes hz' rfl
  cases passes with
  | true => exact pure hz'.ready ⟨rfl, trivial⟩
  | false => exact pure hz'.ready ⟨rfl, trivial⟩

end Found

section Whole

variable (hC : C.Fit) (hx : C.Ready x) (hw : C.Covers x w)

include hC hx hw

theorem entries : C.Echoes x (fun z l l' => l' = l ∧ ∀ p ∈ l, C.Covers z p.1)
    (TreeM.entries w) (TreeM.entries w) :=
  select hC (fun _ _ hz _ => pure hz rfl) hx hw

theorem count : C.Echoes x (fun _ k k' => k' = k) (TreeM.count w) (TreeM.count w) := by
  refine (entries hC hx hw).bind ?_
  rintro z _ l hz ⟨rfl, -⟩
  exact pure hz.ready rfl

theorem toForm {ν : Type} : C.Echoes x (fun _ d d' => d' = d) (TreeM.toForm w : TreeM σ (Data ν))
    (TreeM.toForm w) := by
  refine look hx fun g hs hg => ?_
  dsimp only
  rw [(hg.unmoved hw.attached).node]
  exact check hx fun t ht => hC.form ht (hw.knows hC hx)

theorem equals {v : WrapperRef} (hv : C.Covers x v) :
    C.Echoes x (fun _ b b' => b' = b) (TreeM.equals w v) (TreeM.equals w v) := by
  refine look hx fun g hs hg => ?_
  rw [(hg.unmoved hw.attached).node, (hg.unmoved hv.attached).node]
  exact check hx fun t ht => hC.sameNodes ht (hw.knows hC hx) (hv.knows hC hx)

/-! ### Printing -/

omit hx hw in
theorem printChildren {go go' : Int → WrapperRef → TreeM σ (List String)}
    (hgo : ∀ z i c, C.Ready z → C.Covers z c →
      EndsWithin z.forest.store.held n (z.forest.wrapper c).node →
      C.Echoes z (fun _ l l' => l' = l) (go i c) (go' i c))
    (hx : C.Ready x) (hw : C.Covers x w)
    (hn : EndsWithin x.forest.store.held (n + 1) (x.forest.wrapper w).node) (indent : Int)
    (keys : List String) :
    C.Echoes x (fun _ l l' => l' = l) (TreeM.printChildren go indent w keys)
      (TreeM.printChildren go' indent w keys) := by
  induction keys generalizing x with
  | nil => exact pure hx rfl
  | cons key rest ih =>
    refine (child hC hx hw key).bind ?_
    rintro z _ o hz ⟨rfl, hc⟩
    have hwz := hw.later hC hz
    have hnz := hw.endsWithin_later hC hz hn
    cases o with
    | none => exact ih hz.ready hwz hnz
    | some c =>
      obtain ⟨hcovers, hmem⟩ := hc c rfl
      refine (hgo z _ c hz.ready hcovers (hnz _ hmem)).bind ?_
      rintro z₁ _ lines hz₁ rfl
      refine (ih hz₁.ready (hwz.later hC hz₁) (hwz.endsWithin_later hC hz₁ hnz)).bind ?_
      rintro z₂ _ rest hz₂ rfl
      exact pure hz₂.ready rfl

omit hx hw in
theorem printTo (hx : C.Ready x) (hw : C.Covers x w)
    (hn : EndsWithin x.forest.store.held n (x.forest.wrapper w).node) (hle : n ≤ n')
    (indent : Int) :
    C.Echoes x (fun _ l l' => l' = l) (TreeM.printTo n indent w) (TreeM.printTo n' indent w) := by
  induction n generalizing x w n' indent with
  | zero => exact hn.elim
  | succ n ih =>
    obtain ⟨n', rfl⟩ : ∃ m, n' = m + 1 := ⟨n' - 1, by omega⟩
    have hnode := hx.links hC (hw.knows hC hx)
    refine look hx fun g hs hg => ?_
    have htype : g.typeAt w = x.forest.typeAt w := by
      rw [Forest.typeAt, Forest.typeAt, hw.nodeAt_eq hC hx hs hg]
      exact hC.node hs hnode.type
    dsimp only
    rw [hw.nodeAt_eq hC hx hs hg, htype]
    have hbelow : ∀ (z : World σ) (text : String), C.Follows x z →
        C.Echoes z (fun _ l l' => l' = l)
          (do
            let keys ← TreeM.childKeys w
            let lines ← TreeM.printChildren (TreeM.printTo n) indent w keys
            return text :: lines)
          (do
            let keys ← TreeM.childKeys w
            let lines ← TreeM.printChildren (TreeM.printTo n') indent w keys
            return text :: lines) := by
      intro z text hz
      have hwz := hw.later hC hz
      refine (childKeys hC hz.ready hwz).bind ?_
      rintro z₁ _ keys hz₁ rfl
      refine (printChildren hC (fun z i c hz hc hn => ih hz hc hn (Nat.le_of_succ_le_succ hle) i)
        hz₁.ready (hwz.later hC hz₁) (hw.endsWithin_later hC (hz.trans hz₁) hn) indent keys).bind ?_
      rintro z₂ _ lines hz₂ rfl
      exact pure hz₂.ready rfl
    split
    · exact hbelow x _ (.refl hx)
    · refine (check hx fun t ht => hC.form ht hnode.value).bind ?_
      rintro z _ d hz rfl
      refine (check hz.ready fun _ _ => rfl).bind ?_
      rintro z₁ _ text hz₁ rfl
      exact hbelow z₁ _ (hz.trans hz₁)

theorem printTree (indent : Int) :
    C.Echoes x (fun _ t t' => t' = t) (TreeM.printTree w indent) (TreeM.printTree w indent) := by
  obtain ⟨t, ht⟩ := hx.partner
  refine visitDepth hC hx fun n n' hn hle => ?_
  refine (printTo hC hx hw ((hC.ends ht (hw.knows hC hx)).mono hn) hle indent).bind ?_
  rintro z _ lines hz rfl
  exact pure hz.ready rfl

end Whole

/-! ### Validation and snapshots -/

section Evaluated

variable [Host] (hC : C.Fit)

include hC

theorem validateEach (hx : C.Ready x) {l : List (WrapperRef × Path)}
    (hl : ∀ p ∈ l, C.Covers x p.1) (failures : Entries Failures) :
    C.Echoes x (fun _ m m' => m' = m) (TreeM.validateEach failures l)
      (TreeM.validateEach failures l) := by
  induction l generalizing x failures with
  | nil => exact pure hx rfl
  | cons p rest ih =>
    obtain ⟨v, path⟩ := p
    obtain ⟨hv, hrest⟩ := List.forall_mem_cons.mp hl
    refine (validate hC hx hv).bind ?_
    rintro z _ found hz rfl
    have hrest : ∀ p ∈ rest, C.Covers z p.1 := fun p hp => (hrest p hp).later hC hz
    dsimp only
    split
    · exact ih hz.ready hrest failures
    · exact ih hz.ready hrest _

theorem validateDeep (hx : C.Ready x) (hw : C.Covers x w) :
    C.Echoes x (fun _ m m' => m' = m) (TreeM.validateDeep w) (TreeM.validateDeep w) := by
  refine (checkAlive hC hx hw).bind fun z _ _ hz _ => ?_
  refine (entries hC hz.ready (hw.later hC hz)).bind ?_
  rintro z' _ l hz' ⟨rfl, hl⟩
  exact validateEach hC hz'.ready hl ∅

theorem snapshotChildren {go go' : WrapperRef → TreeM σ Value}
    (hgo : ∀ z c, C.Ready z → C.Covers z c →
      EndsWithin z.forest.store.held n (z.forest.wrapper c).node →
      C.Echoes z (fun z => C.values z.forest.store) (go c) (go' c))
    (hx : C.Ready x) (hw : C.Covers x w)
    (hn : EndsWithin x.forest.store.held (n + 1) (x.forest.wrapper w).node)
    (keys : List String) {d d' : Entries Value} (hd : C.Maps x.forest.store d d') :
    C.Echoes x (fun z => C.Maps z.forest.store) (TreeM.snapshotChildren go w d keys)
      (TreeM.snapshotChildren go' w d' keys) := by
  induction keys generalizing x d d' with
  | nil => exact pure hx hd
  | cons key rest ih =>
    refine (child hC hx hw key).bind ?_
    rintro z _ o hz ⟨rfl, hc⟩
    have hwz := hw.later hC hz
    have hnz := hw.endsWithin_later hC hz hn
    have hdz := hd.later hC.toLawful hz.later
    cases o with
    | none => exact ih hz.ready hwz hnz hdz
    | some c =>
      obtain ⟨hcovers, hmem⟩ := hc c rfl
      refine look hz.ready fun g hs hg => ?_
      dsimp only
      rw [hcovers.nodeAt_eq hC hz.ready hs hg]
      have hrest : ∀ z₁ v v', C.Follows z z₁ → C.values z₁.forest.store v v' → _ :=
        fun z₁ v v' hz₁ hv => ih hz₁.ready (hwz.later hC hz₁) (hwz.endsWithin_later hC hz₁ hnz)
          ((hdz.later hC.toLawful hz₁.later).insert key hv)
      split
      · exact (hgo z c hz.ready hcovers (hnz _ hmem)).bind hrest
      · exact (getValue hC hz.ready hcovers []).bind hrest

theorem snapshotTo (hx : C.Ready x) (hw : C.Covers x w)
    (hn : EndsWithin x.forest.store.held n (x.forest.wrapper w).node) (hle : n ≤ n') :
    C.Echoes x (fun z => C.values z.forest.store) (TreeM.snapshotTo n w)
      (TreeM.snapshotTo n' w) := by
  induction n generalizing x w n' with
  | zero => exact hn.elim
  | succ n ih =>
    obtain ⟨n', rfl⟩ : ∃ m, n' = m + 1 := ⟨n' - 1, by omega⟩
    have hchildren : ∀ z, C.Follows x z → ∀ (keys : List String) d d',
        C.Maps z.forest.store d d' → C.Echoes z (fun z => C.values z.forest.store)
          (TreeM.snapshotChildren (TreeM.snapshotTo n) w d keys >>= TreeM.newDict)
          (TreeM.snapshotChildren (TreeM.snapshotTo n') w d' keys >>= TreeM.newDict) := by
      intro z hz keys d d' hd
      refine (snapshotChildren hC (fun z c hz hc hn => ih hz hc hn (Nat.le_of_succ_le_succ hle))
        hz.ready (hw.later hC hz) (hw.endsWithin_later hC hz hn) keys hd).bind ?_
      exact fun z' d d' hz' hd => newDict hC hz'.ready hd
    refine look hx fun g hs hg => ?_
    dsimp only
    rw [hw.nodeAt_eq hC hx hs hg]
    split
    · exact getValue hC hx hw []
    split
    · refine (childKeys hC hx hw).bind ?_
      rintro z _ keys hz rfl
      exact hchildren z hz keys ∅ ∅ .empty
    · refine (getValue hC hx hw []).bind fun z v v' hz hv => ?_
      refine (childKeys hC hz.ready (hw.later hC hz)).bind ?_
      rintro z' _ keys hz' rfl
      have hv := hC.later hv hz'.later
      split
      · exact pure hz'.ready hv
      · exact hchildren z' (hz.trans hz') keys _ _ (.ofList (.cons ⟨rfl, hv⟩ .nil))

theorem snapshot (hx : C.Ready x) (hw : C.Covers x w) :
    C.Echoes x (fun z => C.values z.forest.store) (TreeM.snapshot w) (TreeM.snapshot w) := by
  refine (checkAlive hC hx hw).bind fun z _ _ hz _ => ?_
  have hwz := hw.later hC hz
  obtain ⟨t, ht⟩ := hz.ready.partner
  exact visitDepth hC hz.ready fun n n' hn hle =>
    snapshotTo hC hz.ready hwz ((hC.ends ht (hwz.knows hC hz.ready)).mono hn) hle

end Evaluated

end Correspondence.Echoes

end LiveTree
