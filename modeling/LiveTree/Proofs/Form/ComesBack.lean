import LiveTree.Proofs.Form.Equivalence
import LiveTree.Proofs.Form.Stable

/-! What comes back from its serialized form. What is rebuilt holds no dictionary that looks like a
serialized node, and two values that are the same hold such dictionaries at the same places. So a
node that can be compared comes back as it was exactly when it holds no such dictionary. -/

namespace LiveTree.Store

variable {s t : Store} {u v w : Value}

/-- Whether a node that is serialized, and rebuilt with some types known, comes back structurally
equal. -/
def ComesBack (s : Store) (types : List NodeRef) (r : NodeRef) : Prop :=
  ∃ d r' t, s.nodeForm r = .ok d ∧ deserialize d (.withTypes s types) s = .ok r' t ∧
    t.sameNodes r r' = .ok true

theorem Same.eq_str {x : String} (h : s.Same (.str x) w) : w = .str x := by
  cases h with
  | scalar _ h => cases w <;> simp_all [Value.scalarsEqual, Value.scalar?]
  | sequence hv => cases hv

/-- Each part of a value is the same as some part of what is the same as the value. -/
theorem Same.exists_part (h : s.Same v w) {p : Value} (hp : p ∈ s.parts v) :
    ∃ q ∈ s.parts w, s.Same p q := by
  cases h with
  | scalar hv =>
    rw [parts_of_cell?_eq_none s hv] at hp
    cases hp
  | sequence hv hw h =>
    rw [parts_of_sequence hv] at hp
    rw [parts_of_sequence hw]
    exact exists_partner h p hp
  | @dict a b hnames h =>
    obtain ⟨k, hk⟩ := Entries.mem_values_iff.mp hp
    obtain ⟨q, hq, hpq⟩ := (Same.dict_iff.mp (.dict hnames h)).exists_right hk
    exact ⟨q, Entries.mem_values_of_get? hq, hpq⟩
  | @node a b hid htype hvalue hdefault hnames h =>
    rcases Node.mem_parts hp with rfl | rfl | ⟨role, x, hx, rfl⟩
    · exact ⟨_, (s.node b).value_mem_parts, hvalue⟩
    · exact ⟨_, (s.node b).default_mem_parts, hdefault⟩
    · obtain ⟨k, hk⟩ := Entries.mem_values_iff.mp hx
      obtain ⟨y, hy, hxy⟩ := Entries.Matched.exists_right ⟨hnames role, h⟩ hk
      exact ⟨_, (s.node b).entry_mem_parts role (Entries.mem_values_of_get? hy), hxy⟩

/-- What is the same as a dictionary that looks like a serialized node looks like one too. -/
theorem Same.looksLikeNode (h : s.Same v w) (hv : s.LooksLikeNode v) : s.LooksLikeNode w := by
  obtain ⟨r, rfl, ⟨x, hx⟩, htype⟩ := hv
  cases h with
  | scalar hv => cases hv
  | sequence hv => cases hv
  | @dict _ b hnames h =>
    have hmatch : Entries.Matched s.Same (s.dict r).toList (s.dict b).toList := ⟨hnames, h⟩
    obtain ⟨y, hy, hxy⟩ := hmatch.exists_right hx
    rw [hxy.eq_str] at hy
    refine ⟨b, rfl, ⟨x, hy⟩, ?_⟩
    rcases htype with ⟨q, hq⟩ | ⟨q, z, hq, hz⟩
    · obtain ⟨y, hy, hqy⟩ := hmatch.exists_right hq
      cases hqy with
      | scalar hv => cases hv
      | sequence hv => cases hv
      | node => exact .inl ⟨_, hy⟩
    · obtain ⟨y, hy, hqy⟩ := hmatch.exists_right hq
      cases hqy with
      | scalar hv => cases hv
      | sequence hv => cases hv
      | dict hnames h =>
        obtain ⟨y', hy', hzy⟩ := (Same.dict_iff.mp (.dict hnames h)).exists_right hz
        rw [hzy.eq_str] at hy'
        exact .inr ⟨_, z, hy, hy'⟩

theorem Same.exists_reached (h : s.Same v w) (hu : Reaches s.parts v u) :
    ∃ x, Reaches s.parts w x ∧ s.Same u x :=
  hu.closed (P := fun u => ∃ x, Reaches s.parts w x ∧ s.Same u x) ⟨w, .refl w, h⟩
    fun _ _ ⟨_, hx, hsame⟩ _ hp =>
      have ⟨q, hq, hpq⟩ := hsame.exists_part hp
      ⟨q, hx.below hq, hpq⟩

theorem LooksLikeNode.extend (hs : s.WellFormed) (he : s.Extends t) (hv : s.Has v)
    (h : s.LooksLikeNode v) : t.LooksLikeNode v := by
  obtain ⟨r, rfl, hid, htype⟩ := h
  have hr : t.dict r = s.dict r := he.agree hv
  refine ⟨r, rfl, hr ▸ hid, ?_⟩
  rw [hr]
  refine htype.imp_right fun ⟨q, x, hq, hx⟩ => ⟨q, x, hq, ?_⟩
  have hhas : s.Has (.dict q) := hs.has_parts hv _ (Entries.mem_values_of_get? hq)
  have hdict : t.dict q = s.dict q := he.agree hhas
  rwa [hdict]

/-- What is reached is still reached in a store that extends a well-formed one. -/
theorem WellFormed.reaches_extends (hs : s.WellFormed) (he : s.Extends t) (hv : s.Has v)
    (hu : Reaches s.parts v u) : Reaches t.parts v u :=
  hu.closed (.refl v) fun x hx hvx y hy => hvx.below (by rwa [he.parts (hs.has_reached hv hx)])

theorem Comparable.extend (hs : s.WellFormed) (he : s.Extends t) (h : s.Comparable v) :
    t.Comparable v where
  has := he.has h.has
  acyclic := (hs.endsWithin_of_extends he h.has (h.ends hs)).acyclic
  ordered _ hu := h.ordered _ (hs.reaches_of_extends he h.has hu)

/-- A node that can be compared comes back exactly when nothing in it is a dictionary that looks
like a serialized node. -/
theorem comesBack_iff (hs : s.WellFormed) {r : NodeRef} (hr : s.Comparable (.node r))
    {types : List NodeRef} (htypes : ∀ q ∈ types, s.Has (.node q)) :
    s.ComesBack types r ↔ ∀ u, Reaches s.parts (.node r) u → ¬ s.LooksLikeNode u := by
  constructor
  · rintro ⟨d, r', t, hd, hrun, hsame⟩ u hu hlooks
    obtain ⟨d', hform, hd'⟩ := hs.form_exists (ν := NodeRef) hr.has hr.acyclic
    obtain rfl := Except.ok.inj (hd.symm.trans hd')
    obtain ⟨he, ht, hsettled⟩ := deserialize_settles hs (.withTypes hs htypes)
      (hform.interchange (hr.ends hs) hr.ordered) hrun
    obtain ⟨x, hx, hux⟩ := ((hr.extend hs he).same_iff ht |>.mp hsame).exists_reached
      (hs.reaches_extends he hr.has hu)
    cases (hsettled t .refl).reached hx with
    | mk _ hplain => exact hplain (hux.looksLikeNode (hlooks.extend hs he (hs.has_reached hr.has hu)))
  · intro hplain
    obtain ⟨d, hform, hd⟩ := hs.form_exists (ν := NodeRef) hr.has hr.acyclic
    obtain ⟨r', t, hrun, -, hsame, -⟩ := deserialize_form hs ⟨hr.has, ⟨_, hr.ends hs⟩, hplain⟩
      hr.ordered hform (.withTypes hs htypes)
    exact ⟨d, r', t, hd, hrun, hsame⟩

end LiveTree.Store
