import LiveTree.Proofs.Form.Matched

/-! Structural equality. Two values are the same when they have equal scalars, lists or tuples of the
same length with the same elements, maps that match, and nodes of the same id and type id, place by
place. Comparing values without cycles decides this, and what looks the same is the same, as far as
it holds numbers that are equal to themselves. -/

namespace LiveTree

namespace Value

/-- Whether a value is a floating-point number that is not a number. -/
def IsNaN (v : Value) : Prop := ∃ x, v = .float x ∧ Number.Magnitude.ofFloat x = .nan

/-- Whether two values are equal scalars. -/
def scalarsEqual (v w : Value) : Bool :=
  match v.scalar?, w.scalar? with
  | some x, some y => x.equal y
  | _, _ =>
    match v, w with
    | .none, .none => true
    | .str x, .str y => decide (x = y)
    | _, _ => false

theorem eq_of_sameCell {v w : Value} (h : v.sameCell w = true) : v = w := by
  cases v <;> cases w <;> simp_all [sameCell, cell?]

theorem position?_isSome {x : Float} (h : Number.Magnitude.ofFloat x ≠ .nan) :
    ∃ p, Number.Position.ofFloat? x = some p := by
  rw [Number.Position.ofFloat?]
  cases hx : Number.Magnitude.ofFloat x with
  | nan => exact absurd hx h
  | infinite negative => cases negative <;> exact ⟨_, rfl⟩
  | finite negative m s => exact ⟨_, rfl⟩

theorem scalarsEqual_self {v : Value} (hv : v.cell? = .none) (hnan : ¬ v.IsNaN) :
    v.scalarsEqual v = true := by
  cases v with
  | none => rfl
  | bool b => simp [scalarsEqual, scalar?, Number.Scalar.equal, Number.Scalar.position?]
  | int i => simp [scalarsEqual, scalar?, Number.Scalar.equal, Number.Scalar.position?]
  | float x =>
    obtain ⟨p, hp⟩ := position?_isSome fun h => hnan ⟨x, rfl, h⟩
    simp [scalarsEqual, scalar?, Number.Scalar.equal, Number.Scalar.position?, hp]
  | str t => simp [scalarsEqual, scalar?]
  | _ => cases hv

theorem cell?_eq_none_of_scalarsEqual {v w : Value} (h : v.scalarsEqual w = true) :
    w.cell? = .none := by
  cases v <;> cases w <;> first | rfl | cases h

end Value

namespace Store

variable {s : Store} {v w : Value}

/-- Values of a store that are the same by their structure. -/
inductive Same (s : Store) : Value → Value → Prop
  | scalar {v w : Value} (hv : v.cell? = none) (h : v.scalarsEqual w = true) : Same s v w
  | sequence {v w : Value} {xs ys : List Value} (hv : s.sequence? v = some xs)
      (hw : s.sequence? w = some ys) (h : List.Forall₂ (Same s) xs ys) : Same s v w
  | dict {a b : DictRef} (hnames : ∀ k, ((s.dict a).get? k).isSome = ((s.dict b).get? k).isSome)
      (h : ∀ {k x y}, (s.dict a).get? k = some x → (s.dict b).get? k = some y → Same s x y) :
      Same s (.dict a) (.dict b)
  | node {a b : NodeRef} (hid : (s.node a).id = (s.node b).id)
      (htype : (s.typeOf a).id = (s.typeOf b).id)
      (hvalue : Same s (s.node a).value (s.node b).value)
      (hdefault : Same s (s.node a).default (s.node b).default)
      (hnames : ∀ role k, (((s.node a).entries role).get? k).isSome =
        (((s.node b).entries role).get? k).isSome)
      (h : ∀ {role k x y}, ((s.node a).entries role).get? k = some x →
        ((s.node b).entries role).get? k = some y → Same s (.node x) (.node y)) :
      Same s (.node a) (.node b)

namespace Same

theorem sequence_iff {xs ys : List Value} (hv : s.sequence? v = some xs)
    (hw : s.sequence? w = some ys) : s.Same v w ↔ List.Forall₂ s.Same xs ys := by
  refine ⟨fun h => ?_, .sequence hv hw⟩
  cases h with
  | scalar hscalar => cases v <;> first | (cases hscalar; done) | cases hv
  | sequence hv' hw' h =>
    cases hv'.symm.trans hv
    cases hw'.symm.trans hw
    exact h
  | dict => cases hv
  | node => cases hv

theorem dict_iff {a b : DictRef} :
    s.Same (.dict a) (.dict b) ↔ Entries.Matched s.Same (s.dict a).toList (s.dict b).toList := by
  refine ⟨fun h => ?_, fun h => .dict h.names h.related⟩
  cases h with
  | scalar hv => cases hv
  | sequence hv => cases hv
  | dict hnames h => exact ⟨hnames, h⟩

theorem node_iff {a b : NodeRef} : s.Same (.node a) (.node b) ↔
    ((s.node a).id = (s.node b).id ∧ (s.typeOf a).id = (s.typeOf b).id) ∧
      s.Same (s.node a).value (s.node b).value ∧ s.Same (s.node a).default (s.node b).default ∧
      ∀ role, Entries.Matched (fun x y => s.Same (.node x) (.node y))
        ((s.node a).entries role).toList ((s.node b).entries role).toList := by
  constructor
  · intro h
    cases h with
    | scalar hv => cases hv
    | sequence hv => cases hv
    | node hid htype hvalue hdefault hnames h =>
      exact ⟨⟨hid, htype⟩, hvalue, hdefault, fun role => ⟨hnames role, h⟩⟩
  · rintro ⟨⟨hid, htype⟩, hvalue, hdefault, h⟩
    exact .node hid htype hvalue hdefault (fun role => (h role).names) fun {role} => (h role).related

end Same

/-- What looks the same is the same. -/
theorem same_of_alike (h : Alike s s v w) {n : ℕ} (hend : EndsWithin s.parts n v)
    (hnan : ∀ u, Reaches s.parts v u → ¬ u.IsNaN) : s.Same v w := by
  induction n generalizing v w with
  | zero => exact hend.elim
  | succ n ih =>
    have below : ∀ p ∈ s.parts v, ∀ q, Alike s s p q → s.Same p q := fun p hp q hpq =>
      ih hpq (hend p hp) fun u hu => hnan u (hu.of_below hp)
    cases h with
    | scalar hv => exact .scalar hv (Value.scalarsEqual_self hv (hnan v (.refl v)))
    | sequence hv hw h =>
      have hparts := parts_of_sequence hv
      exact .sequence hv hw (forall₂_imp_mem h fun p hp q _ => below p (hparts ▸ hp) q)
    | dict hkeys h =>
      have hentries := forall₂_imp_mem h fun p hp q _ => below p hp q
      exact Same.dict_iff.mpr (Entries.matched_of_forall₂ (forall₂_pairs.mpr ⟨hkeys, hentries⟩))
    | @node a b hid htype _ hvalue hdefault hkeys h =>
      refine Same.node_iff.mpr ⟨⟨hid.symm, htype.symm⟩, below _ (s.node a).value_mem_parts _ hvalue,
        below _ (s.node a).default_mem_parts _ hdefault, fun role => ?_⟩
      have hentries := forall₂_imp_mem (h role) fun p hp q _ =>
        below _ ((s.node a).entry_mem_parts role hp) (.node q)
      exact Entries.matched_of_forall₂ (forall₂_pairs.mpr ⟨hkeys role, hentries⟩)

/-! ### Comparing -/

/-- Compares two values by what they are made of, with a given comparison for their parts. -/
def compareParts (s : Store) (same : Value → Value → Except Fault Bool) (v w : Value) :
    Except Fault Bool :=
  match v, w with
  | .node x, .node y => do
    if (s.node x).id = (s.node y).id ∧ (s.typeOf x).id = (s.typeOf y).id then
      if ← same (s.node x).value (s.node y).value then
        if ← same (s.node x).default (s.node y).default then
          rolesSame same (s.node x) (s.node y) Role.all
        else return false
      else return false
    else return false
  | .dict x, .dict y => mapsSame same (s.dict x) (s.dict y)
  | v, w =>
    match s.sequence? v, s.sequence? w with
    | some xs, some ys => if xs.length = ys.length then allSame same xs ys else .ok false
    | _, _ => .ok (v.scalarsEqual w)

/-- One level of the comparison: a cell is the same as itself, other values go by their parts. -/
theorem sameTo_succ (n : ℕ) : s.sameTo (n + 1) v w =
    if v.sameCell w then .ok true else s.compareParts (s.sameTo n) v w := by
  cases v <;> cases w <;> rfl

section Parts

variable {same : Value → Value → Except Fault Bool}

theorem compareParts_sequence {xs ys : List Value} (hv : s.sequence? v = some xs)
    (hw : s.sequence? w = some ys) : s.compareParts same v w =
      if xs.length = ys.length then allSame same xs ys else .ok false := by
  cases v <;> cases w <;> first | (cases hv; done) | (cases hw; done) | (cases hv; cases hw; rfl)

theorem scalars_decide (hv : v.cell? = none) :
    Decides (s.compareParts same v w) (s.Same v w) := by
  have hcompare : s.compareParts same v w = .ok (v.scalarsEqual w) := by
    cases v <;> first | rfl | cases hv
  refine ⟨v.scalarsEqual w, hcompare, .scalar hv, fun h => ?_⟩
  cases h with
  | scalar _ h => exact h
  | sequence hxs => cases v <;> first | (cases hv; done) | cases hxs
  | dict => cases hv
  | node => cases hv

theorem sequences_decide {xs ys : List Value} (hv : s.sequence? v = some xs)
    (hw : s.sequence? w = some ys)
    (h : ∀ p ∈ s.parts v, ∀ q, Decides (same p q) (s.Same p q)) :
    Decides (s.compareParts same v w) (s.Same v w) := by
  have hparts := parts_of_sequence hv
  rw [compareParts_sequence hv hw, Same.sequence_iff hv hw]
  split
  · exact allSame_decides fun p hp q _ => h p (hparts ▸ hp) q
  · rename_i hlength
    exact .no fun h => hlength h.length_eq

theorem nodes_decide {r q : NodeRef}
    (h : ∀ p ∈ s.parts (.node r), ∀ q, Decides (same p q) (s.Same p q)) :
    Decides (s.compareParts same (.node r) (.node q)) (s.Same (.node r) (.node q)) := by
  have hroles : Decides (rolesSame same (s.node r) (s.node q) Role.all) _ :=
    rolesSame_decides (P := s.Same)
      (fun role x hx y _ => h _ ((s.node r).entry_mem_parts role hx) _) Role.all
  have hfields := (h _ (s.node r).value_mem_parts (s.node q).value).and fun _ =>
    (h _ (s.node r).default_mem_parts (s.node q).default).and fun _ => hroles
  rw [compareParts, Same.node_iff]
  split
  · rename_i hids
    refine hfields.congr ⟨?_, ?_⟩
    · rintro ⟨hvalue, hdefault, h⟩
      exact ⟨hids, hvalue, hdefault, fun role => h role (by cases role <;> decide)⟩
    · rintro ⟨-, hvalue, hdefault, h⟩
      exact ⟨hvalue, hdefault, fun role _ => h role⟩
  · rename_i hids
    exact .no fun h => hids h.1

/-- Comparing by parts decides whether values are the same, if the comparison of the parts does. -/
theorem compareParts_decides (h : ∀ p ∈ s.parts v, ∀ q, Decides (same p q) (s.Same p q)) :
    Decides (s.compareParts same v w) (s.Same v w) := by
  cases v with
  | list r =>
    cases w with
    | list q => exact sequences_decide rfl rfl h
    | tuple q => exact sequences_decide rfl rfl h
    | _ => exact .no fun h => by cases h <;> simp_all [sequence?, Value.cell?]
  | tuple r =>
    cases w with
    | list q => exact sequences_decide rfl rfl h
    | tuple q => exact sequences_decide rfl rfl h
    | _ => exact .no fun h => by cases h <;> simp_all [sequence?, Value.cell?]
  | dict r =>
    cases w with
    | dict q => exact (mapsSame_decides fun p hp q _ => h p hp q).congr Same.dict_iff.symm
    | _ => exact .no fun h => by cases h <;> simp_all [sequence?, Value.cell?]
  | node r =>
    cases w with
    | node q => exact nodes_decide h
    | _ => exact .no fun h => by cases h <;> simp_all [sequence?, Value.cell?]
  | _ => exact scalars_decide rfl

end Parts

/-- Comparing values decides whether they are the same, to every depth that is enough for the first
of them. -/
theorem sameTo_decides {n : ℕ} (hend : EndsWithin s.parts n v)
    (hnan : ∀ u, Reaches s.parts v u → ¬ u.IsNaN) : Decides (s.sameTo n v w) (s.Same v w) := by
  induction n generalizing v w with
  | zero => exact hend.elim
  | succ n ih =>
    rw [sameTo_succ]
    split
    · rename_i hcell
      obtain rfl := Value.eq_of_sameCell hcell
      exact .yes (same_of_alike (.refl hend) hend hnan)
    · exact compareParts_decides fun p hp q =>
        ih (hend p hp) fun u hu => hnan u (hu.of_below hp)

/-- What looks the same compares as the same. -/
theorem sameTo_of_alike (h : Alike s s v w) {n : ℕ} (hend : EndsWithin s.parts n v)
    (hnan : ∀ u, Reaches s.parts v u → ¬ u.IsNaN) : s.sameTo n v w = .ok true :=
  (sameTo_decides hend hnan).eq_true_iff.mpr (same_of_alike h hend hnan)

end Store

end LiveTree
