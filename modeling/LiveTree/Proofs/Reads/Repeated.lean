import LiveTree.Proofs.Reads.Echo
import LiveTree.Tree.Show

/-! The reads of one node, each of them done again: whether its wrapper is alive, the keys of its
children, what evaluation starts from, metadata, constraints and validation. -/

namespace LiveTree.Correspondence.Echoes

variable {σ α β γ δ : Type} {C : Correspondence} {x : World σ} {w : WrapperRef}

/-! ### Single wrappers -/

section Wrapper

variable (hC : C.Fit) (hx : C.Ready x) (hw : C.Covers x w)

include hC hx hw

/-- The keys of a wrapper's children are the same again. -/
theorem childKeys : C.Echoes x (fun _ keys keys' => keys' = keys) (TreeM.childKeys w)
    (TreeM.childKeys w) := by
  rw [TreeM.childKeys]
  refine look hx fun g hs hg => ?_
  rw [hw.nodeAt_eq hC hx hs hg]
  exact pure hx rfl

theorem checkAlive : C.Echoes x (fun _ _ _ => True) (TreeM.checkAlive w) (TreeM.checkAlive w) := by
  rw [TreeM.checkAlive]
  refine look hx fun g hs hg => ?_
  rw [hw.nodeAt_eq hC hx hs hg, (hg.unmoved hw.attached).destroyed]
  split
  · exact throw hx _
  · exact pure hx trivial

/-- The context of an evaluation is the same again, and evaluation in it can be repeated. -/
theorem context {v : WrapperRef} (hv : C.Covers x v) :
    C.Echoes x (fun z c c' => c' = c ∧ C.Contexts z.forest.store c c ∧
      c.current = (z.forest.wrapper v).node) (TreeM.context w v) (TreeM.context w v) := by
  have hroot := hw.ancestors hx.kept _ (x.forest.root_mem w)
  rw [TreeM.context]
  refine look hx fun g hs hg => ?_
  have hlookup : ∀ r, g.lookup v r = x.forest.lookup v r := hg.lookup_eq hx.kept hv.attached
  rw [hg.registry_eq hx.kept hw.attached, hg.root_eq hx.kept hw.attached,
    (hg.unmoved hroot.attached).node, (hg.unmoved hv.attached).node]
  simp only [hlookup]
  cases hregistry : x.forest.registry w with
  | none => exact throw hx _
  | some registry =>
    refine pure hx ⟨rfl, ⟨hv.knows hC hx, hroot.knows hC hx, rfl,
      .some ⟨List.forall₂_same.mpr fun e he => ?_, .some (hroot.knows hC hx)⟩, .none, ?_⟩, rfl⟩
    · obtain ⟨a, ha, rfl⟩ := List.mem_map.mp he
      have ha := hv.ancestors hx.kept a ha
      refine ⟨ha.knows hC hx, Found.same fun p hp => ?_⟩
      obtain ⟨u, hu, rfl⟩ := Option.map_eq_some_iff.mp hp
      exact (ha.parent hx.kept hu).knows hC hx
    · obtain ⟨a, -, ha⟩ := List.exists_of_findSome?_eq_some hregistry
      exact hx.standard a registry ha

end Wrapper

theorem isTrue (hC : C.Fit) (hx : C.Ready x) {v v' : Value}
    (hv : C.values x.forest.store v v') :
    C.Echoes x (fun _ b b' => b' = b) (TreeM.isTrue v) (TreeM.isTrue v') := by
  rw [TreeM.isTrue, TreeM.isTrue]
  refine look hx fun g hs _ => ?_
  rw [hC.truthy_eq hs hv]
  exact pure hx rfl

section Values

variable [Host] (hC : C.Fit) (hx : C.Ready x) (hw : C.Covers x w)

include hC hx

theorem readNode {c : Context} (hc : C.Contexts x.forest.store c c) {r : NodeRef}
    (hr : C.Knows x.forest.store r) :
    C.Echoes x (fun z => C.values z.forest.store) (TreeM.readNode c r) (TreeM.readNode c r) := by
  have hvalue := (hx.links hC hr).value
  rw [TreeM.readNode]
  refine look hx fun g hs _ => ?_
  rw [hC.node hs hr]
  dsimp only
  split
  · exact eval hC hx hc hr
  · generalize (x.forest.store.node r).value = v at hvalue
    cases v with
    | node q => exact eval hC hx hc hvalue
    | _ => exact pure hx hvalue

include hw

/-- What is evaluated in the context of a wrapper. -/
theorem evaluated {r : NodeRef} (hr : C.Knows x.forest.store r) {k : Value → TreeM σ γ}
    {S : World σ → γ → γ → Prop}
    (hk : ∀ z v v', C.Follows x z → C.values z.forest.store v v' → C.Echoes z S (k v) (k v')) :
    C.Echoes x S (do
        let c ← TreeM.context w w
        let v ← TreeM.eval (evaluate c r)
        k v)
      (do
        let c ← TreeM.context w w
        let v ← TreeM.eval (evaluate c r)
        k v) := by
  refine (context hC hx hw hw).bind ?_
  rintro z c _ hz ⟨rfl, hc, -⟩
  refine (eval hC hz.ready hc (hr.later hC.toLawful hz.later)).bind fun z' v v' hz' hv => ?_
  exact hk z' v v' (hz.trans hz') hv

theorem getMetadata (key : String) :
    C.Echoes x (fun z => C.values z.forest.store) (TreeM.getMetadata w key)
      (TreeM.getMetadata w key) := by
  refine (checkAlive hC hx hw).bind fun z _ _ hz _ => look hz.ready fun g hs hg => ?_
  have hw := hw.later hC hz
  rw [hw.nodeAt_eq hC hz.ready hs hg]
  cases hr : (z.forest.nodeAt w).metadata.get? key with
  | none => exact pure hz.ready (hC.scalar _ rfl)
  | some r =>
    have hr := (hz.ready.links hC (hw.knows hC hz.ready)).entry .metadata
      (Entries.mem_values_of_get? hr)
    refine (context hC hz.ready hw hw).bind ?_
    rintro z' c _ hz' ⟨rfl, hc, -⟩
    exact readNode hC hz'.ready hc (hr.later hC.toLawful hz'.later)

theorem getConstraint (key : String) :
    C.Echoes x (fun _ b b' => b' = b) (TreeM.getConstraint w key) (TreeM.getConstraint w key) := by
  refine (checkAlive hC hx hw).bind fun z _ _ hz _ => look hz.ready fun g hs hg => ?_
  have hw := hw.later hC hz
  rw [hw.nodeAt_eq hC hz.ready hs hg]
  cases hr : (z.forest.nodeAt w).constraints.get? key with
  | none => exact pure hz.ready rfl
  | some r =>
    have hr := (hz.ready.links hC (hw.knows hC hz.ready)).entry .constraints
      (Entries.mem_values_of_get? hr)
    have hvalue := (hz.ready.links hC hr).value
    dsimp only
    rw [hC.node hs hr]
    generalize (z.forest.store.node r).value = v at hvalue
    cases v with
    | none => exact pure hz.ready rfl
    | node q =>
      exact evaluated hC hz.ready hw hvalue fun z' v v' hz' hv => isTrue hC hz'.ready hv
    | _ => exact isTrue hC hz.ready hvalue

theorem failureMessage (key : String) {rule : NodeRef} (hr : C.Knows x.forest.store rule) :
    C.Echoes x (fun _ t t' => t' = t) (TreeM.failureMessage w key rule)
      (TreeM.failureMessage w key rule) := by
  have htext : ∀ z : World σ, C.Ready z → ∀ v v', C.values z.forest.store v v' →
      C.Echoes z (fun _ t t' => t' = t) (TreeM.check (·.valueText v))
        (TreeM.check (·.valueText v')) := fun z hz v v' hv =>
    check hz fun t ht => hC.valueText_eq ht hv
  refine look hx fun g hs hg => ?_
  dsimp only
  rw [hC.node hs hr]
  cases hmessage : (x.forest.store.node rule).metadata.get? "message" with
  | none => exact pure hx rfl
  | some r =>
    have hr := (hx.links hC hr).entry .metadata (Entries.mem_values_of_get? hmessage)
    have hvalue := (hx.links hC hr).value
    dsimp only
    rw [hC.node hs hr]
    generalize (x.forest.store.node r).value = v at hvalue
    cases v with
    | none => exact pure hx rfl
    | node q => exact evaluated hC hx hw hvalue fun z v v' hz hv => htext z hz.ready v v' hv
    | _ => exact htext x hx _ _ hvalue

theorem validateAll (failures : Failures) {l : List (String × NodeRef)}
    (hl : ∀ p ∈ l, C.Knows x.forest.store p.2) :
    C.Echoes x (fun _ m m' => m' = m) (TreeM.validateAll w failures l)
      (TreeM.validateAll w failures l) := by
  induction l generalizing failures x with
  | nil => exact pure hx rfl
  | cons p rest ih =>
    obtain ⟨key, rule⟩ := p
    obtain ⟨hrule, hrest⟩ := List.forall_mem_cons.mp hl
    have hlater : ∀ z, C.Follows x z → ∀ p ∈ rest, C.Knows z.forest.store p.2 :=
      fun z hz p hp => (hrest p hp).later hC.toLawful hz.later
    refine (getConstraint hC hx hw key).bind ?_
    rintro z _ holds hz rfl
    cases holds with
    | true => exact ih hz.ready (hw.later hC hz) failures (hlater z hz)
    | false =>
      refine (failureMessage hC hz.ready (hw.later hC hz) key
        (hrule.later hC.toLawful hz.later)).bind ?_
      rintro z' _ message hz' rfl
      exact ih hz'.ready (hw.later hC (hz.trans hz')) _ (hlater z' (hz.trans hz'))

theorem validate :
    C.Echoes x (fun _ m m' => m' = m) (TreeM.validate w) (TreeM.validate w) := by
  refine (checkAlive hC hx hw).bind fun z _ _ hz _ => look hz.ready fun g hs hg => ?_
  have hw := hw.later hC hz
  rw [hw.nodeAt_eq hC hz.ready hs hg]
  exact validateAll hC hz.ready hw ∅ fun p hp =>
    (hz.ready.links hC (hw.knows hC hz.ready)).entry .constraints (List.mem_map_of_mem hp)

end Values

end LiveTree.Correspondence.Echoes
