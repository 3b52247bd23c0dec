import LiveTree.Form.Plain
import LiveTree.Proofs.Form.Equated
import LiveTree.Proofs.Form.Stable

/-! Structural equality and the serialized form. Values that are the same have equal forms. Values
with equal forms are the same, unless a node in one of them meets a dictionary in the other that
looks like a serialized node. In plain values, which hold no nodes, this cannot happen; so what
reads as the forms of two nodes compares as the nodes do. -/

namespace LiveTree

open Store

variable {ν : Type} {s t : Store} {v w : Value} {d e : Data ν}

/-! ### What has a form -/

theorem FormOf.scalar?_eq_some_iff {u : Value} (h : FormOf s v d) :
    d.scalar? = some u ↔ v = u ∧ v.cell? = Option.none := by
  cases h with
  | sequence hv => cases v <;> first | (cases hv; done) | simp [Data.scalar?, Value.cell?]
  | _ => simp [Data.scalar?, Value.cell?]

/-- Whether data is the form of a part of a value. -/
def Store.PartForm (s : Store) (v p : Value) (d : Data ν) : Prop := p ∈ s.parts v ∧ FormOf s p d

theorem FormOf.of_sequence {xs : List Value} (h : FormOf s v d) (hv : s.sequence? v = some xs) :
    ∃ ds, d = .list ds ∧ List.Forall₂ (s.PartForm v) xs ds := by
  cases h with
  | sequence hv' h =>
    cases hv'.symm.trans hv
    exact ⟨_, rfl, forall₂_imp_mem h fun p hp _ _ hpd => ⟨parts_of_sequence hv ▸ hp, hpd⟩⟩
  | _ => cases hv

theorem FormOf.of_dict {r : DictRef} (h : FormOf s (.dict r) d) :
    ∃ es, d = .dict es ∧ Entries.Matched (s.PartForm (.dict r)) (s.dict r).toList es := by
  cases h with
  | sequence hv => cases hv
  | dict hkeys h =>
    have hentries := Entries.matched_of_forall₂ (forall₂_pairs.mpr ⟨hkeys, h⟩)
    exact ⟨_, rfl, hentries.imp fun p hp _ _ hpd => ⟨List.mem_map_of_mem hp, hpd⟩⟩

theorem FormOf.of_node {r : NodeRef} (h : FormOf s (.node r) d) :
    ∃ value default maps,
      d = .dict (nodeFields (s.node r).id (s.typeOf r).id value default maps) ∧
      s.PartForm (.node r) (s.node r).value value ∧
      s.PartForm (.node r) (s.node r).default default ∧
      ∀ role, Entries.Matched (fun q => s.PartForm (.node r) (.node q))
        ((s.node r).entries role).toList (maps role) := by
  cases h with
  | sequence hv => cases hv
  | @node _ value default maps hvalue hdefault hkeys h =>
    refine ⟨value, default, maps, rfl, ⟨(s.node r).value_mem_parts, hvalue⟩,
      ⟨(s.node r).default_mem_parts, hdefault⟩, fun role => ?_⟩
    have hentries := Entries.matched_of_forall₂ (forall₂_pairs.mpr ⟨hkeys role, h role⟩)
    exact hentries.imp fun p hp _ _ hpd =>
      ⟨(s.node r).entry_mem_parts role (List.mem_map_of_mem hp), hpd⟩

theorem FormOf.dict_or_node {es : List (String × Data ν)} (h : FormOf s v (.dict es)) :
    (∃ r, v = .dict r) ∨ ∃ r, v = .node r := by
  cases h with
  | dict => exact .inl ⟨_, rfl⟩
  | node => exact .inr ⟨_, rfl⟩

/-! ### Forms of values that are the same -/

/-- Values that are the same have equal forms. -/
theorem equates_of_same {n : ℕ} (hend : EndsWithin s.parts n v) (h : s.Same v w)
    (hd : FormOf s v d) (he : FormOf s w e) : d.Equates e := by
  induction n generalizing v w d e with
  | zero => exact hend.elim
  | succ n ih =>
    have below : ∀ x y d e, s.PartForm v x d → s.PartForm w y e → s.Same x y →
        Data.Equates d e := fun x y d e hx hy hxy => ih (hend x hx.1) hxy hx.2 hy.2
    cases h with
    | scalar hv h =>
      have hw := Value.cell?_eq_none_of_scalarsEqual h
      exact .scalar (hd.scalar?_eq_some_iff.mpr ⟨rfl, hv⟩) (he.scalar?_eq_some_iff.mpr ⟨rfl, hw⟩) h
    | sequence hv hw h =>
      obtain ⟨ds, rfl, hds⟩ := hd.of_sequence hv
      obtain ⟨es, rfl, hes⟩ := he.of_sequence hw
      exact .list (forall₂_between hds hes h below)
    | dict hnames h =>
      obtain ⟨ds, rfl, hds⟩ := hd.of_dict
      obtain ⟨es, rfl, hes⟩ := he.of_dict
      exact Data.Equates.dict_iff.mpr (hds.between hes ⟨hnames, h⟩ below)
    | node hid htype hvalue hdefault hnames h =>
      obtain ⟨_, _, _, rfl, hvalueForm, hdefaultForm, hmaps⟩ := hd.of_node
      obtain ⟨_, _, _, rfl, hvalueForm', hdefaultForm', hmaps'⟩ := he.of_node
      rw [hid, htype]
      exact .nodeFields (below _ _ _ _ hvalueForm hvalueForm' hvalue)
        (below _ _ _ _ hdefaultForm hdefaultForm' hdefault) fun role =>
          (hmaps role).between (hmaps' role) ⟨hnames role, h⟩ fun x y => below (.node x) (.node y)

/-! ### Values with equal forms -/

/-- Whether never a node in one of two values is where a dictionary in the other looks like a
serialized node. -/
def Store.Apart (s : Store) (v w : Value) : Prop :=
  ∀ x y, Reaches s.parts v x → Reaches s.parts w y →
    ¬ (x.asNode?.isSome ∧ s.LooksLikeNode y) ∧ ¬ (s.LooksLikeNode x ∧ y.asNode?.isSome)

theorem Store.Apart.below (h : s.Apart v w) {p q : Value} (hp : p ∈ s.parts v)
    (hq : q ∈ s.parts w) : s.Apart p q := fun x y hx hy => h x y (hx.of_below hp) (hy.of_below hq)

/-- Values with equal forms are the same, if never a node meets what looks like one. -/
theorem same_of_equates {n : ℕ} (hend : EndsWithin s.parts n v) (h : d.Equates e)
    (hd : FormOf s v d) (he : FormOf s w e) (hapart : s.Apart v w) : s.Same v w := by
  induction n generalizing v w d e with
  | zero => exact hend.elim
  | succ n ih =>
    have below : ∀ d e x y, s.PartForm v x d → s.PartForm w y e → Data.Equates d e →
        s.Same x y := fun d e x y hx hy hde =>
      ih (hend x hx.1) hde hx.2 hy.2 (hapart.below hx.1 hy.1)
    have hself := hapart v w (.refl v) (.refl w)
    have hstands := h.standsForNode_eq
    cases h with
    | scalar hv hw h =>
      obtain ⟨rfl, hcell⟩ := hd.scalar?_eq_some_iff.mp hv
      obtain ⟨rfl, -⟩ := he.scalar?_eq_some_iff.mp hw
      exact .scalar hcell h
    | list h =>
      cases hd with
      | sequence hv hds =>
        cases he with
        | sequence hw hes =>
          obtain ⟨_, ⟨⟩, hds⟩ := (FormOf.sequence hv hds).of_sequence hv
          obtain ⟨_, ⟨⟩, hes⟩ := (FormOf.sequence hw hes).of_sequence hw
          exact .sequence hv hw (forall₂_between hds.flip hes.flip h below)
    | dict hnames h =>
      have hfields : Data.Equates (.dict _) (.dict _) := .dict hnames h
      rcases hd.dict_or_node with ⟨a, rfl⟩ | ⟨a, rfl⟩ <;>
        rcases he.dict_or_node with ⟨b, rfl⟩ | ⟨b, rfl⟩
      · obtain ⟨_, ⟨⟩, hds⟩ := hd.of_dict
        obtain ⟨_, ⟨⟩, hes⟩ := he.of_dict
        exact Same.dict_iff.mpr (hds.flip.between hes.flip ⟨hnames, h⟩ below)
      · exact absurd ⟨hd.looksLikeNode (hstands.trans he.standsForNode), rfl⟩ hself.2
      · exact absurd ⟨rfl, he.looksLikeNode (hstands.symm.trans hd.standsForNode)⟩ hself.1
      · obtain ⟨_, _, _, hds, hvalueForm, hdefaultForm, hmaps⟩ := hd.of_node
        obtain ⟨_, _, _, hes, hvalueForm', hdefaultForm', hmaps'⟩ := he.of_node
        rw [hds, hes] at hfields
        obtain ⟨hids, hvalue, hdefault, hentries⟩ := hfields.of_nodeFields
        refine Same.node_iff.mpr ⟨hids, below _ _ _ _ hvalueForm hvalueForm' hvalue,
          below _ _ _ _ hdefaultForm hdefaultForm' hdefault, fun role => ?_⟩
        exact (hmaps role).flip.between (hmaps' role).flip (hentries role) fun d e x y =>
          below d e (.node x) (.node y)

/-! ### Plain values -/

/-- Whether a value without cycles holds no nodes and no number that is not a number, and has some
form. -/
structure Store.PlainForm (t : Store) (n : ℕ) (x : Value) (d : Data NodeRef) : Prop where
  ends : EndsWithin t.parts n x
  form : FormOf t x d
  plain : ∀ u, Reaches t.parts x u → ¬ u.IsNaN ∧ u.asNode? = none

theorem Store.PlainForm.of_parts {n : ℕ} {x : Value} {d : Data NodeRef} (hnan : ¬ x.IsNaN)
    (hnode : x.asNode? = none) (hform : FormOf t x d)
    (hparts : ∀ p ∈ t.parts x, ∃ e, t.PlainForm n p e) : t.PlainForm (n + 1) x d where
  ends p hp := (hparts p hp).choose_spec.ends
  form := hform
  plain := Reaches.forall_iff.mpr ⟨⟨hnan, hnode⟩, fun p hp => (hparts p hp).choose_spec.plain⟩

/-- A value that reads as data of the interchange format is plain and has that data as its form. -/
theorem plainForm_of_dataTo {n : ℕ} {x : Value} {d : Data NodeRef}
    (h : t.dataTo (fun r => .ok (.leaf r)) n x = .ok d) (hd : d.Interchange) :
    t.PlainForm n x d := by
  induction n generalizing x d with
  | zero => cases h
  | succ n ih =>
    cases x with
    | none =>
      cases h
      exact .of_parts (fun ⟨_, e, _⟩ => nomatch e) rfl .none nofun
    | bool b =>
      cases h
      exact .of_parts (fun ⟨_, e, _⟩ => nomatch e) rfl (.bool b) nofun
    | int i =>
      cases h
      exact .of_parts (fun ⟨_, e, _⟩ => nomatch e) rfl (.int i) nofun
    | float x =>
      cases h
      cases hd with
      | float hx =>
        refine .of_parts ?_ rfl (.float x) nofun
        rintro ⟨_, ⟨⟩, hnan⟩
        exact hx hnan
    | str t =>
      cases h
      exact .of_parts (fun ⟨_, e, _⟩ => nomatch e) rfl (.str t) nofun
    | list r =>
      obtain ⟨ds, hds, rfl⟩ := map_eq_ok h
      cases hd with
      | list hd =>
        have hitems := forall₂_imp_mem (forall₂_of_mapM hds) fun p _ d hmem hpd => ih hpd (hd d hmem)
        refine .of_parts (fun ⟨_, e, _⟩ => nomatch e) rfl (.sequence rfl (hitems.imp fun _ _ hp =>
          hp.form)) fun p hp => ?_
        obtain ⟨d, -, hpd⟩ := exists_partner hitems p hp
        exact ⟨d, hpd⟩
    | tuple r =>
      obtain ⟨ds, -, rfl⟩ := map_eq_ok h
      cases hd
    | dict r =>
      obtain ⟨es, hes, rfl⟩ := map_eq_ok h
      cases hd with
      | dict hnames hd =>
        have hentries : List.Forall₂ (fun p e => e.1 = p.1 ∧ t.PlainForm n p.2 e.2)
            (t.dict r).toList es := by
          refine forall₂_imp_mem (forall₂_of_mapM hes) fun p _ e hmem hpe => ?_
          obtain ⟨d, hpd, he⟩ := bind_eq_ok hpe
          cases he
          exact ⟨rfl, ih hpd (hd _ hmem)⟩
        obtain ⟨hkeys, hvalues⟩ := forall₂_pairs.mp hentries
        refine .of_parts (fun ⟨_, e, _⟩ => nomatch e) rfl (.dict hkeys (hvalues.imp fun _ _ hp =>
          hp.form)) fun p hp => ?_
        obtain ⟨d, -, hpd⟩ := exists_partner hvalues p hp
        exact ⟨d, hpd⟩
    | node r =>
      cases h
      cases hd

/-! ### Nodes and their forms -/

/-- Two nodes without cycles, in which no number is not a number, can be compared and serialized, and
so can any values that read as their forms. When the nodes are the same, so are those values; and
when the values are the same, so are the nodes, if nothing in the nodes is a dictionary that looks
like a serialized node. -/
theorem nodeForms_same_iff (hs : s.WellFormed) {a b : NodeRef} (ha : s.Has (.node a))
    (hb : s.Has (.node b)) (hacyclic : Acyclic s.parts (.node a))
    (hacyclic' : Acyclic s.parts (.node b))
    (hnan : ∀ u, Reaches s.parts (.node a) u ∨ Reaches s.parts (.node b) u → ¬ u.IsNaN) :
    ∃ (da db : Data NodeRef) (same : Bool), s.nodeForm a = .ok da ∧ s.nodeForm b = .ok db ∧
      s.sameNodes a b = .ok same ∧
      ∀ (t : Store) (x y : Value), t.data x = .ok da → t.data y = .ok db →
        ∃ equal, t.same x y = .ok equal ∧ (same = true → equal = true) ∧
          ((∀ u, Reaches s.parts (.node a) u ∨ Reaches s.parts (.node b) u →
            ¬ s.LooksLikeNode u) → equal = true → same = true) := by
  have hend := hs.endsWithin ha hacyclic
  have hend' := hs.endsWithin hb hacyclic'
  have hnan₁ := fun u hu => hnan u (.inl hu)
  have hnan₂ := fun u hu => hnan u (.inr hu)
  obtain ⟨da, hda, hform⟩ := hs.form_exists (ν := NodeRef) ha hacyclic
  obtain ⟨db, hdb, hform'⟩ := hs.form_exists (ν := NodeRef) hb hacyclic'
  obtain ⟨same, hsame, hsame_iff⟩ := sameTo_decides (w := .node b) hend hnan₁
  refine ⟨da, db, same, hform, hform', hsame, fun t x y hx hy => ?_⟩
  have hx := plainForm_of_dataTo hx (hda.interchange hend hnan₁)
  have hy := plainForm_of_dataTo hy (hdb.interchange hend' hnan₂)
  obtain ⟨equal, hequal, hequal_iff⟩ := sameTo_decides (w := y) hx.ends fun u hu => (hx.plain u hu).1
  refine ⟨equal, hequal, fun h => ?_, fun hplain h => ?_⟩
  · have hequates := equates_of_same hend (hsame_iff.mp h) hda hdb
    refine hequal_iff.mpr (same_of_equates hx.ends hequates hx.form hy.form fun u u' hu hu' => ?_)
    rw [(hx.plain u hu).2, (hy.plain u' hu').2]
    exact ⟨fun h => (nomatch h.1), fun h => nomatch h.2⟩
  · have hequates := equates_of_same hx.ends (hequal_iff.mp h) hx.form hy.form
    refine hsame_iff.mpr (same_of_equates hend hequates hda hdb fun u u' hu hu' => ?_)
    exact ⟨fun h => hplain u' (.inr hu') h.2, fun h => hplain u (.inl hu) h.1⟩

/-- Two nodes that are the same, the one with a tuple of a number as its value, the other with a list
of a truth value. -/
def Store.paired : Store :=
  let s := (initial.allocTuple [.int 1]).2
  let s := (s.allocList [.bool true]).2
  let s := (s.allocNode { Builtin.node "p" Builtin.property .plain with value := .tuple ⟨0⟩ }).2
  (s.allocNode { Builtin.node "p" Builtin.property .plain with value := .list ⟨0⟩ }).2

theorem Store.paired_wellFormed : paired.WellFormed :=
  initial_wellFormed.allocTuple (by decide)
    |>.allocList (by decide)
    |>.allocNode (by decide) rfl (by decide)
    |>.allocNode (by decide) rfl (by decide)

/-- A store with dictionaries that read as the forms of the two nodes. -/
def Store.spelled : Store :=
  let s := (initial.allocDict (.ofList [("id", .str "Property")])).2
  let s := (s.allocList [.int 1]).2
  let s := (s.allocDict (.ofList [("id", .str "p"), ("type", .dict ⟨0⟩), ("value", .list ⟨0⟩)])).2
  let s := (s.allocList [.bool true]).2
  (s.allocDict (.ofList [("id", .str "p"), ("type", .dict ⟨0⟩), ("value", .list ⟨1⟩)])).2

theorem spelled_same : ∃ da db : Data NodeRef, paired.nodeForm ⟨8⟩ = .ok da ∧
    paired.nodeForm ⟨9⟩ = .ok db ∧ spelled.data (.dict ⟨1⟩) = .ok da ∧
    spelled.data (.dict ⟨2⟩) = .ok db ∧ paired.sameNodes ⟨8⟩ ⟨9⟩ = .ok true ∧
    spelled.same (.dict ⟨1⟩) (.dict ⟨2⟩) = .ok true := by
  have hend : EndsWithin paired.parts 3 (.node ⟨8⟩) := by decide
  have hend' : EndsWithin paired.parts 3 (.node ⟨9⟩) := by decide
  have hnan : ∀ r : NodeRef, paired.Has (.node r) → _ := fun r hr => Store.not_isNaN paired_wellFormed
    (by decide) (by decide) (by decide) (by decide) hr
  obtain ⟨da, db, same, hda, hdb, hsame, h⟩ := nodeForms_same_iff paired_wellFormed (a := ⟨8⟩)
    (b := ⟨9⟩) (by decide) (by decide) hend.acyclic hend'.acyclic fun u hu =>
      hu.elim (hnan ⟨8⟩ (by decide) u) (hnan ⟨9⟩ (by decide) u)
  have hx : spelled.data (.dict ⟨1⟩) = .ok da := Eq.trans rfl hda
  have hy : spelled.data (.dict ⟨2⟩) = .ok db := Eq.trans rfl hdb
  obtain ⟨equal, hequal, hto, -⟩ := h spelled _ _ hx hy
  have hyes : paired.sameNodes ⟨8⟩ ⟨9⟩ = .ok true := by decide +kernel
  cases hsame.symm.trans hyes
  rw [hto rfl] at hequal
  exact ⟨da, db, hda, hdb, hx, hy, hyes, hequal⟩

end LiveTree
