import LiveTree.Proofs.Reads.Grounded
import LiveTree.Proofs.Reads.Visits
import LiveTree.Proofs.Tree.References

/-! Reading changes nothing that can be read. A program that only reads, from attached wrappers of
trees without cycles and with standard operators, leaves every node, what the program keeps for
itself and every open batch as they are; and a read that is done again after it gives the same
answer. Wrappers must not have been destroyed on request: a destroyed wrapper that is still kept is
dropped by a read, and with it wrappers below that could be read before. -/

namespace LiveTree

variable {σ : Type} {x y z : World σ} {w : WrapperRef}

/-! ### Worlds -/

/-- What a program has that has destroyed no wrapper on request and uses standard operators. -/
structure World.Sound (x : World σ) : Prop where
  arises : x.forest.Arises false
  standard : ∀ v g, (x.forest.wrapper v).registry = some g → g.IsStandard
  wellFormed : x.forest.store.WellFormed

/-- Whether a wrapper stands below a root, each node on the way holding the next one under its key,
and the root's node has no cycles. -/
def World.Readable (x : World σ) (w : WrapperRef) : Prop :=
  ∃ (root : WrapperRef) (path : Path), root.index < x.forest.wrappers.size ∧
    (x.forest.wrapper root).parent = none ∧ x.forest.Leads root path w ∧
    x.forest.store.Grounded (.node (x.forest.wrapper root).node)

/-- Whether a world comes from another one by reading: cells and argument orders are added, and
wrappers may be made, or forgotten as far as they do not stand in a tree. -/
structure World.OnlyRead (x z : World σ) : Prop where
  sustains : x.forest.Sustains z.forest
  later : x.forest.store.Later z.forest.store
  user : z.user = x.user

namespace World.OnlyRead

theorem refl (x : World σ) : x.OnlyRead x := ⟨.refl _, .refl _, rfl⟩

theorem trans (h : x.OnlyRead y) (h' : y.OnlyRead z) : x.OnlyRead z :=
  ⟨h.sustains.trans h'.sustains, h.later.trans h'.later, h'.user.trans h.user⟩

theorem of_follows {C : Correspondence} (h : C.Follows x z) : x.OnlyRead z :=
  ⟨h.sustains, h.later, h.user⟩

end World.OnlyRead

/-- What stands below a node without cycles has none. -/
theorem World.Readable.grounded (hs : x.forest.store.WellFormed) (hw : x.Readable w) :
    x.forest.store.Grounded (.node (x.forest.wrapper w).node) := by
  obtain ⟨root, path, -, -, hleads, hgrounded⟩ := hw
  induction hleads with
  | here => exact hgrounded
  | child _ _ hnode _ ih =>
    refine ih (hgrounded.links hs _ (Store.parts_subset_links _ ?_))
    exact Node.entry_mem_parts _ .children (Entries.mem_values_of_get? hnode)

namespace World.Sound

/-- At the start a node of a well-formed store is wrapped, with the standard operators. -/
theorem start {s : Store} (hs : s.WellFormed) (r : NodeRef) (u : σ) : World.Sound
    { forest := ((Forest.mk s #[]).allocWrapper (.ofNode r (some .standard))).2, user := u } where
  arises := (Forest.Arises.start s).wrap r _
  standard v g hg := by
    rcases (Forest.mk s #[]).wrapper_allocWrapper (.ofNode r (some .standard)) v with ⟨e, -⟩ | e
    · cases hg.symm.trans (congrArg Wrapper.registry e)
      exact Registry.get?_standard
    · rw [Forest.wrapper_start] at e
      cases hg.symm.trans (congrArg Wrapper.registry e)
  wellFormed := hs

/-- A sound world is ready for reads that are repeated on a later store. -/
theorem ready (hx : x.Sound) {t : Store} (ht : x.forest.store.Later t) :
    (Correspondence.shifted x.forest.store t).Ready x :=
  ⟨hx.arises, hx.standard, t, .start (counterparts_of_later hx.wellFormed ht)⟩

theorem covers (hx : x.Sound) (t : Store) (hw : x.Readable w) :
    (Correspondence.shifted x.forest.store t).Covers x w := by
  obtain ⟨root, path, hmade, hparent, hleads, hgrounded⟩ := hw
  exact ⟨root, hmade, hparent, hgrounded.knows _ _, path, hx.arises.placed.along_of_leads hleads⟩

theorem of_follows {C : Correspondence} (hC : C.Fit) (h : C.Follows x z) : z.Sound :=
  have ⟨_, ht⟩ := h.ready.partner
  ⟨h.ready.arises, h.ready.standard, hC.wellFormed ht⟩

end World.Sound

/-! ### Reads and their answers -/

/-- The reads of a wrapper. A search goes by what is in the nodes. -/
inductive Read where
  | value (path : Path)
  | metadata (key : String)
  | constraint (key : String)
  | validate
  | validateDeep
  | snapshot
  | form
  | clone
  | equals (v : WrapperRef)
  | print (indent : Int)
  | count
  | find (test : Node → Bool)

/-- What a read gives. -/
inductive Answer where
  | value (v : Value)
  | truth (b : Bool)
  | failures (m : Failures)
  | allFailures (m : Entries Failures)
  | form (d : Data Empty)
  | copy (c : WrapperRef)
  | text (t : String)
  | number (n : ℕ)
  | found (o : Option WrapperRef)

namespace Read

/-- Does a read. -/
def run [Host] (w : WrapperRef) : Read → TreeM σ Answer
  | .value path => return .value (← TreeM.getValue w path)
  | .metadata key => return .value (← TreeM.getMetadata w key)
  | .constraint key => return .truth (← TreeM.getConstraint w key)
  | .validate => return .failures (← TreeM.validate w)
  | .validateDeep => return .allFailures (← TreeM.validateDeep w)
  | .snapshot => return .value (← TreeM.snapshot w)
  | .form => return .form (← TreeM.toForm w)
  | .clone => return .copy (← TreeM.clone w)
  | .equals v => return .truth (← TreeM.equals w v)
  | .print indent => return .text (← TreeM.printTree w indent)
  | .count => return .number (← TreeM.count w)
  | .find test => return .found (← TreeM.find w fun c => do
      return test ((← TreeM.forest).nodeAt c))

/-- Whether all that a read looks at besides the wrapper itself can be read. -/
def Fits (x : World σ) : Read → Prop
  | .equals v => x.Readable v
  | _ => True

end Read

/-- Whether two answers are the same, with values and copies related in some way. -/
def Answer.Related (V : Value → Value → Prop) (W : WrapperRef → WrapperRef → Prop) :
    Answer → Answer → Prop
  | .value v, .value v' => V v v'
  | .copy c, .copy c' => W c c'
  | a, b => b = a

/-- Whether two answers in two worlds are the same: values look the same, copies have the same
form. -/
def Answer.Alike (x y : World σ) : Answer → Answer → Prop :=
  Related (LiveTree.Alike x.forest.store y.forest.store) fun c c' =>
    (y.forest.store.nodeForm (y.forest.wrapper c').node : Except Fault (Data Empty)) =
      x.forest.store.nodeForm (x.forest.wrapper c).node

/-! ### Each read again -/

namespace Correspondence.Echoes

/-- Every read but copying repeats itself. -/
theorem read [Host] {C : Correspondence} (hC : C.Fit) (hx : C.Ready x) (hw : C.Covers x w)
    {q : Read} (hq : q ≠ .clone) (hfits : ∀ v, q = .equals v → C.Covers x v) :
    C.Echoes x (fun z => Answer.Related (C.values z.forest.store) fun _ _ => False) (q.run w)
      (q.run w) := by
  cases q with
  | value path => exact (getValue hC hx hw path).bind fun z _ _ hz hv => pure hz.ready hv
  | metadata key => exact (getMetadata hC hx hw key).bind fun z _ _ hz hv => pure hz.ready hv
  | constraint key =>
    exact (getConstraint hC hx hw key).bind fun z _ _ hz h => pure hz.ready (congrArg _ h)
  | validate => exact (validate hC hx hw).bind fun z _ _ hz h => pure hz.ready (congrArg _ h)
  | validateDeep =>
    exact (validateDeep hC hx hw).bind fun z _ _ hz h => pure hz.ready (congrArg _ h)
  | snapshot => exact (snapshot hC hx hw).bind fun z _ _ hz hv => pure hz.ready hv
  | form => exact (toForm hC hx hw).bind fun z _ _ hz h => pure hz.ready (congrArg _ h)
  | clone => exact absurd rfl hq
  | equals v =>
    exact (equals hC hx hw (hfits v rfl)).bind fun z _ _ hz h => pure hz.ready (congrArg _ h)
  | print indent =>
    exact (printTree hC hx hw indent).bind fun z _ _ hz h => pure hz.ready (congrArg _ h)
  | count => exact (count hC hx hw).bind fun z _ _ hz h => pure hz.ready (congrArg _ h)
  | find test =>
    refine (find hC (fun z c hz hc => ?_) hx hw).bind fun z _ _ hz h =>
      pure hz.ready (congrArg _ h)
    refine look hz fun g hs hg => ?_
    rw [hc.nodeAt_eq hC hz hs hg]
    exact pure hz rfl

end Correspondence.Echoes

theorem Store.additive_later (s : Store) : Store.Additive s.Later where
  list _ l h := h.trans (later_allocList l)
  dict _ d h := h.trans (later_allocDict d)
  node _ n h := h.trans (later_allocNode n)

/-- A clone is a new wrapper of the copy. -/
theorem TreeM.clone_eq {r : NodeRef} {t : Store}
    (h : copyNode (x.forest.wrapper w).node x.forest.store = .ok r t) :
    TreeM.clone w x = .ok ⟨x.forest.wrappers.size⟩ (x.withForest
      ((x.withStore t).forest.allocWrapper (.ofNode r ((x.withStore t).forest.registry w))).2) := by
  have hbuild : (TreeM.build (copyNode (x.forest.wrapper w).node) : TreeM σ NodeRef) x =
      .ok r (x.withStore t) := by
    rw [TreeM.build, EStateM.run, h]
    rfl
  rw [TreeM.clone, TreeM.forest_bind, bind_of_ok hbuild]
  rfl

/-- Copying a node without cycles succeeds, only adds to the world, and the copy has the form of the
node. -/
theorem World.Sound.clone (hx : x.Sound) (hw : x.Readable w) :
    ∃ c z, TreeM.clone w x = .ok c z ∧ z.Sound ∧ x.OnlyRead z ∧
      (z.forest.store.nodeForm (z.forest.wrapper c).node : Except Fault (Data Empty)) =
        x.forest.store.nodeForm (x.forest.wrapper w).node := by
  have hgrounded := hw.grounded hx.wellFormed
  have hacyclic := hgrounded.acyclic _ (.refl _)
  obtain ⟨r, t, hr, he, ht, hcopy⟩ := copyNode_spec hx.wellFormed hgrounded.has hacyclic
  obtain ⟨d, hd, -, hdr⟩ := hcopy.nodeForm_eq (ν := Empty) hx.wellFormed he hgrounded.has hacyclic
  have hlater : x.forest.store.Later t :=
    ((Store.additive_later _).keeps_copyNode _).ok (.refl _) hr |>.1
  let f : Forest := { x.forest with store := t }
  have hclone : TreeM.clone w x = .ok ⟨f.wrappers.size⟩
      (x.withForest (f.allocWrapper (.ofNode r (f.registry w))).2) := TreeM.clone_eq hr
  have hold := hx.arises.store t
  have hnew : (f.allocWrapper (.ofNode r (f.registry w))).2.wrapper ⟨f.wrappers.size⟩ =
      .ofNode r (f.registry w) := f.wrapper_allocWrapper_self _
  refine ⟨_, _, hclone, ⟨hold.wrap r _, fun v g hg => ?_, ht⟩, ⟨?_, hlater, rfl⟩, ?_⟩
  · rcases f.wrapper_allocWrapper (.ofNode r (f.registry w)) v with ⟨e, -⟩ | e
    · have hg : f.registry w = some g := by
        rw [← hg]
        exact congrArg Wrapper.registry e.symm
      obtain ⟨a, -, ha⟩ := List.exists_of_findSome?_eq_some hg
      exact hx.standard a g ha
    · exact hx.standard v g (hg ▸ congrArg Wrapper.registry e.symm)
  · exact (Forest.Sustains.of_extends (f := x.forest) (g := f) rfl he).trans
      (.allocWrapper hold.kept.toOrdered r _)
  · show t.nodeForm ((f.allocWrapper _).2.wrapper ⟨f.wrappers.size⟩).node = _
    rw [hnew, hd]
    exact hdr

/-! ### Sequences of reads -/

/-- How a read ends in a world. -/
def Read.EndsIn [Host] (q : Read) (w : WrapperRef) (x z : World σ) : Prop :=
  (∃ a, q.run w x = .ok a z) ∨ ∃ e, q.run w x = .error e z

/-- Whether a program comes from a world to another by reads of wrappers that can be read, which may
succeed or fail. -/
inductive ReadsTo [Host] : World σ → World σ → Prop
  | refl (x : World σ) : ReadsTo x x
  | step {x z y : World σ} {w : WrapperRef} {q : Read} (hw : x.Readable w) (hq : q.Fits x)
      (hrun : q.EndsIn w x z) (rest : ReadsTo z y) : ReadsTo x y

/-- A read changes nothing. -/
theorem Read.EndsIn.onlyRead [Host] {q : Read} (h : q.EndsIn w x z) (hx : x.Sound)
    (hw : x.Readable w) (hq : q.Fits x) : z.Sound ∧ x.OnlyRead z := by
  by_cases hclone : q = .clone
  · subst hclone
    obtain ⟨c, z', hrun, hz, hread, -⟩ := hx.clone hw
    have hrun : (Read.clone.run w : TreeM σ Answer) x = .ok (.copy c) z' := bind_of_ok hrun _
    rcases h with ⟨_, e⟩ | ⟨_, e⟩ <;> cases hrun.symm.trans e
    exact ⟨hz, hread⟩
  · have hlater := Store.Later.refl x.forest.store
    have hC := shifted_fit hx.wellFormed hlater
    have hechoes := Correspondence.Echoes.read hC (hx.ready hlater) (hx.covers _ hw) hclone
      fun v hv => hx.covers _ (by subst hv; exact hq)
    rw [Correspondence.Echoes] at hechoes
    have hfollows : (Correspondence.shifted x.forest.store x.forest.store).Follows x z := by
      rcases h with ⟨_, e⟩ | ⟨_, e⟩ <;> rw [e] at hechoes <;> cases hechoes <;> assumption
    exact ⟨.of_follows hC hfollows, .of_follows hfollows⟩

/-- So do any number of reads. -/
theorem ReadsTo.onlyRead [Host] (h : ReadsTo x y) (hx : x.Sound) : y.Sound ∧ x.OnlyRead y := by
  induction h with
  | refl => exact ⟨hx, .refl _⟩
  | step hw hq hrun _ ih =>
    obtain ⟨hz, hxz⟩ := hrun.onlyRead hx hw hq
    obtain ⟨hy, hzy⟩ := ih hz
    exact ⟨hy, hxz.trans hzy⟩

/-- What can be read can still be read in a world that comes from reading. -/
theorem World.Readable.later (hx : x.Sound) (h : x.OnlyRead y) (hw : x.Readable w) :
    y.Readable w := by
  obtain ⟨root, path, hmade, hparent, hleads, hgrounded⟩ := hw
  have hlasts := h.sustains.lasts hmade hparent
  have hroot := hlasts.unmoved [] root (.here root)
  have hway : ∀ {v c p q}, x.forest.Along root p v → x.forest.Leads v q c →
      y.forest.Leads v q c := by
    intro v c p q hv hc
    induction hc generalizing p with
    | here => exact .here _
    | @child v c d key rest hparent hkey hnode _ ih =>
      obtain ⟨key', hkey', hkept⟩ := hx.arises.placed.held _ _ hparent
      cases hkey.symm.trans hkey'
      have hc := hv.step hkept hnode
      have hmoved := hlasts.unmoved _ _ hc
      have hhas : x.forest.store.Has (.node (x.forest.wrapper v).node) := by
        by_contra hnot
        rw [Forest.nodeAt, x.forest.store.node_of_not_has hnot] at hnode
        cases hnode
      refine .child (hmoved.parent.trans hparent) (hmoved.key_eq.trans hkey) ?_ (ih hc)
      rw [Forest.nodeAt, (hlasts.unmoved _ _ hv).node, h.later.node hhas, hmoved.node]
      exact hnode
  refine ⟨root, path, Nat.lt_of_lt_of_le hmade h.sustains.size, hroot.parent.trans hparent,
    hway (.here root) hleads, ?_⟩
  rw [hroot.node]
  exact hgrounded.extend hx.wellFormed h.later.cells

/-- Whether all nodes of a world, what its program keeps for itself and the changes that wrappers
hold back are the same in another one. -/
structure World.Unchanged (x y : World σ) : Prop where
  node {r : NodeRef} : x.forest.store.Has (.node r) → y.forest.store.node r = x.forest.store.node r
  user : y.user = x.user
  batched {v : WrapperRef} : v.index < x.forest.wrappers.size →
    (y.forest.wrapper v).batched = (x.forest.wrapper v).batched

theorem World.OnlyRead.unchanged (h : x.OnlyRead y) : x.Unchanged y :=
  ⟨h.later.node, h.user, fun hv => (h.sustains.settings hv).2⟩

theorem Answer.Related.imp {V V' : Value → Value → Prop} {W W' : WrapperRef → WrapperRef → Prop}
    (hV : ∀ v v', V v v' → V' v v') (hW : ∀ c c', W c c' → W' c c') {a b : Answer}
    (h : Related V W a b) : Related V' W' a b := by
  cases a <;> cases b <;> first | exact hV _ _ h | exact hW _ _ h | exact h

/-- Reading changes nothing that a program can see: after a read, and any number of further reads,
all nodes, what the program keeps for itself and the changes held back are as they were before; and
the read, done again, gives the same answer or fails in the same way. -/
theorem read_again [Host] (hx : x.Sound) (hw : x.Readable w) {q : Read} (hq : q.Fits x)
    (hrun : q.EndsIn w x z) (hreads : ReadsTo z y) :
    x.Unchanged y ∧ (∀ a, q.run w x = .ok a z → ∃ b u, q.run w y = .ok b u ∧ a.Alike z u b) ∧
      ∀ e, q.run w x = .error e z → ∃ u, q.run w y = .error e u := by
  obtain ⟨hz, hxz⟩ := hrun.onlyRead hx hw hq
  obtain ⟨hy, hzy⟩ := hreads.onlyRead hz
  have hxy := hxz.trans hzy
  refine ⟨hxy.unchanged, ?_⟩
  by_cases hclone : q = .clone
  · subst hclone
    obtain ⟨c, z', hc, -, -, hform⟩ := hx.clone hw
    obtain ⟨c', u, hc', -, -, hform'⟩ := hy.clone (hw.later hx hxy)
    have hrun : (Read.clone.run w : TreeM σ Answer) x = .ok (.copy c) z' := bind_of_ok hc _
    have hrun' : (Read.clone.run w : TreeM σ Answer) y = .ok (.copy c') u := bind_of_ok hc' _
    refine ⟨fun a ha => ?_, fun e he => (by cases hrun.symm.trans he)⟩
    cases hrun.symm.trans ha
    have hnode := (hxy.sustains.unmoved (hx.covers y.forest.store hw).attached).node
    rw [hnode, (hw.grounded hx.wellFormed).nodeForm_eq hx.wellFormed hxy.later.cells] at hform'
    exact ⟨_, u, hrun', hform'.trans hform.symm⟩
  · have hC := shifted_fit hx.wellFormed hxy.later
    have hechoes := Correspondence.Echoes.read hC (hx.ready hxy.later) (hx.covers y.forest.store hw)
      hclone fun v hv => hx.covers _ (by subst hv; exact hq)
    have hstores := Parallel.start (counterparts_of_later hx.wellFormed hxy.later)
    have hretains : z.forest.Retains y.forest := .of_sustains hzy.sustains
    rw [Correspondence.Echoes] at hechoes
    refine ⟨fun a ha => ?_, fun e he => ?_⟩
    · rw [ha] at hechoes
      cases hechoes with
      | ok _ again =>
        obtain ⟨b, t, hb, ht, hab⟩ := again y _ hstores hretains
        refine ⟨b, y.withStore t, hb, hab.imp (fun v v' hv => hC.alike ht hv) fun _ _ h => h.elim⟩
    · rw [he] at hechoes
      cases hechoes with
      | error _ again =>
        obtain ⟨t, ht⟩ := again y _ hstores hretains
        exact ⟨y.withStore t, ht⟩

/-- The form with an address under a wrapper with the standard operators. -/
def formWorld : World Unit where
  forest := ((Forest.mk .addressForm #[]).allocWrapper (.ofNode ⟨10⟩ (some .standard))).2
  user := ()

theorem formWorld_sound : formWorld.Sound := .start Store.addressForm_wellFormed ⟨10⟩ ()

theorem formWorld_readable : formWorld.Readable ⟨0⟩ := by
  refine ⟨⟨0⟩, [], by decide, rfl, .here _, (by decide : Store.addressForm.Has (.node ⟨10⟩)), ?_⟩
  intro u hu
  have hends : ∀ i < 11, EndsWithin Store.addressForm.parts 4 (.node ⟨i⟩) := by decide
  have hhas : Store.addressForm.Has u := hu.closed (P := Store.addressForm.Has) (by decide)
    fun x _ hx => Store.addressForm_wellFormed.has_links x hx
  cases u with
  | node r => exact (hends r.index hhas).acyclic
  | list r => exact absurd hhas (Nat.not_lt_zero _)
  | tuple r => exact absurd hhas (Nat.not_lt_zero _)
  | dict r => exact absurd hhas (Nat.not_lt_zero _)
  | _ => exact EndsWithin.acyclic (n := 1) fun p hp => absurd hp List.not_mem_nil

theorem formWorld_read_again : ∃ (a b c : Answer) (z y u : World Unit),
    @Read.run Unit Host.none ⟨0⟩ .snapshot formWorld = .ok a z ∧
      @Read.run Unit Host.none ⟨0⟩ .validateDeep z = .ok c y ∧
      @Read.run Unit Host.none ⟨0⟩ .snapshot y = .ok b u ∧ a.Alike z u b := by
  let host := Host.none
  obtain ⟨a, c, z, y, hfirst, hsecond⟩ : ∃ (a c : Answer) (z y : World Unit),
      Read.snapshot.run ⟨0⟩ formWorld = .ok a z ∧ Read.validateDeep.run ⟨0⟩ z = .ok c y :=
    ⟨_, _, _, _, rfl, rfl⟩
  have hends : Read.snapshot.EndsIn ⟨0⟩ formWorld z := .inl ⟨a, hfirst⟩
  have hreadable := formWorld_readable.later formWorld_sound
    (hends.onlyRead formWorld_sound formWorld_readable trivial).2
  have hreads : ReadsTo z y :=
    .step (q := .validateDeep) hreadable trivial (.inl ⟨c, hsecond⟩) (.refl y)
  obtain ⟨-, hagain, -⟩ := read_again (q := .snapshot) formWorld_sound formWorld_readable trivial
    hends hreads
  obtain ⟨b, u, hb, hab⟩ := hagain a hfirst
  exact ⟨a, b, c, z, y, u, hfirst, hsecond, hb, hab⟩

end LiveTree
