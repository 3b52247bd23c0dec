import LiveTree.Form.Plain
import LiveTree.Proofs.Form.RoundTrip

/-! Equality of serialized forms. Plain data is compared scalar by scalar, list by list and map by
map. Values that are the same have equal forms; and values with equal forms are the same, unless a
node in one of them meets a dictionary that looks like a serialized node in the other. -/

namespace LiveTree

open Store

variable {α β γ δ ν : Type} {s t : Store} {v w : Value}

/-- Lists whose elements are related through partners in two other lists. -/
theorem forall₂_between {R : α → γ → Prop} {S : β → δ → Prop} {P : α → β → Prop}
    {Q : γ → δ → Prop} {xs : List α} {ys : List β} {cs : List γ} {ds : List δ}
    (hR : List.Forall₂ R xs cs) (hS : List.Forall₂ S ys ds) (hP : List.Forall₂ P xs ys)
    (hQ : ∀ x y c d, R x c → S y d → P x y → Q c d) : List.Forall₂ Q cs ds := by
  induction hP generalizing cs ds with
  | nil =>
    cases hR
    cases hS
    exact .nil
  | cons hxy _ ih =>
    cases hR with
    | cons hxc hR =>
      cases hS with
      | cons hyd hS => exact .cons (hQ _ _ _ _ hxc hyd hxy) (ih hR hS)

/-- So are matching maps. -/
theorem Entries.Matched.between {R : α → γ → Prop} {S : β → δ → Prop} {P : α → β → Prop}
    {Q : γ → δ → Prop} {xs : List (String × α)} {ys : List (String × β)} {cs : List (String × γ)}
    {ds : List (String × δ)} (hR : Matched R xs cs) (hS : Matched S ys ds) (hP : Matched P xs ys)
    (hQ : ∀ x y c d, R x c → S y d → P x y → Q c d) : Matched Q cs ds :=
  ((hR.flip.trans hP).trans hS).imp fun _ _ _ _ ⟨_, ⟨_, hxc, hxy⟩, hyd⟩ => hQ _ _ _ _ hxc hyd hxy

namespace Data

/-- The scalar that data is. -/
def scalar? : Data ν → Option Value
  | .null => some .none
  | .bool b => some (.bool b)
  | .int i => some (.int i)
  | .float x => some (.float x)
  | .str t => some (.str t)
  | _ => none

theorem isSome_bind_asText? {o : Option (Data ν)} :
    (o.bind asText?).isSome = true ↔ ∃ t, o = some (.str t) := by
  rcases o with _ | d
  · simp
  · cases d <;> simp [asText?]

/-- Plain data that is equal. -/
inductive Equates : Data ν → Data ν → Prop
  | scalar {d e : Data ν} {v w : Value} (hd : d.scalar? = some v) (he : e.scalar? = some w)
      (h : v.scalarsEqual w = true) : Equates d e
  | list {ds es : List (Data ν)} (h : List.Forall₂ Equates ds es) : Equates (.list ds) (.list es)
  | dict {ds es : List (String × Data ν)}
      (hnames : ∀ k, (Entries.find k ds).isSome = (Entries.find k es).isSome)
      (h : ∀ {k d e}, Entries.find k ds = some d → Entries.find k es = some e → Equates d e) :
      Equates (.dict ds) (.dict es)

namespace Equates

variable {d e : Data ν} {ds es : List (String × Data ν)}

theorem dict_iff : Equates (.dict ds) (.dict es) ↔ Entries.Matched Equates ds es := by
  refine ⟨fun h => ?_, fun h => .dict h.names h.related⟩
  cases h with
  | scalar hd => cases hd
  | dict hnames h => exact ⟨hnames, h⟩

theorem str_iff {t t' : String} : Equates (.str t : Data ν) (.str t') ↔ t = t' := by
  constructor
  · rintro ⟨⟨⟩, ⟨⟩, h⟩
    simpa [Value.scalarsEqual, Value.scalar?] using h
  · rintro rfl
    exact .scalar rfl rfl (Value.scalarsEqual_self rfl (by simp [Value.IsNaN]))

theorem null_iff : Equates .null d ↔ d = .null := by
  constructor
  · rintro ⟨⟨⟩, he, h⟩
    cases d <;> cases he <;> first | rfl | cases h
  · rintro rfl
    exact .scalar rfl rfl rfl

/-- Equal data is the same text, if any. -/
theorem asText?_eq (h : Equates d e) : d.asText? = e.asText? := by
  cases h with
  | @scalar _ _ v w hd he h =>
    cases d <;> cases hd <;> cases e <;> cases he <;>
      first | rfl | cases h | simp_all [Value.scalarsEqual, Value.scalar?]
  | list => rfl
  | dict => rfl

/-- What is read off equal data under a name is the same, if equal data reads the same. -/
theorem bind_get?_eq {f : Data ν → Option α} (h : Equates d e) (k : String)
    (hf : ∀ x y, Equates x y → f x = f y) : (d.get? k).bind f = (e.get? k).bind f := by
  cases h with
  | scalar hd he => cases d <;> cases hd <;> cases e <;> cases he <;> rfl
  | list => rfl
  | dict hnames h => exact (Entries.Matched.mk hnames h).bind_find_eq hf k

/-- Of equal data, either all stands for a node or nothing. -/
theorem standsForNode_eq (h : Equates d e) : d.standsForNode = e.standsForNode := by
  have hid := h.bind_get?_eq "id" fun _ _ => asText?_eq
  have htype := h.bind_get?_eq "type" fun _ _ hxy => hxy.bind_get?_eq "id" fun _ _ => asText?_eq
  rw [← Option.bind_assoc, ← Option.bind_assoc] at htype
  rw [Bool.eq_iff_iff, standsForNode_iff, standsForNode_iff]
  simp only [← isSome_bind_asText?, hid, htype]

/-! ### Fields -/

theorem null_left_iff (h : Equates d e) : d = .null ↔ e = .null := by
  refine ⟨fun hd => null_iff.mp (hd ▸ h), fun he => ?_⟩
  subst he
  cases h with
  | scalar hd he h => cases d <;> cases hd <;> cases he <;> first | rfl | cases h

theorem optional (h : Equates d e) (name : String) :
    Entries.Matched Equates (Data.optional name d) (Data.optional name e) := by
  have hfields : ∀ d : Data ν, d ≠ .null → Data.optional name d = [(name, d)] := fun d hd => by
    cases d <;> first | rfl | exact absurd rfl hd
  by_cases hd : d = .null
  · rw [hd, h.null_left_iff.mp hd]
    exact Entries.matched_of_forall₂ .nil
  · rw [hfields d hd, hfields e (mt h.null_left_iff.mpr hd)]
    exact Entries.matched_of_forall₂ (.cons ⟨rfl, h⟩ .nil)

theorem optionalMap (h : Entries.Matched Equates ds es) (role : Role) :
    Entries.Matched Equates (Data.optionalMap role ds) (Data.optionalMap role es) := by
  rw [Data.optionalMap, Data.optionalMap, h.isEmpty_eq]
  split
  · exact Entries.matched_of_forall₂ .nil
  · exact Entries.matched_of_forall₂ (.cons ⟨rfl, dict_iff.mpr h⟩ .nil)

section NodeFields

variable {id typeId id' typeId' : String} {value default value' default' : Data ν}
  {maps maps' : Role → List (String × Data ν)}

theorem nodeFields (hvalue : Equates value value') (hdefault : Equates default default')
    (hmaps : ∀ role, Entries.Matched Equates (maps role) (maps' role)) :
    Equates (.dict (LiveTree.nodeFields id typeId value default maps))
      (.dict (LiveTree.nodeFields id typeId value' default' maps')) := by
  have htype : Equates (.dict [("id", (.str typeId : Data ν))]) (.dict [("id", .str typeId)]) :=
    dict_iff.mpr (Entries.matched_of_forall₂ (.cons ⟨rfl, str_iff.mpr rfl⟩ .nil))
  have hids := Entries.matched_of_forall₂ (R := Equates)
    (.cons (a := ("id", (.str id : Data ν))) (b := ("id", .str id)) ⟨rfl, str_iff.mpr rfl⟩
      (.cons (a := ("type", _)) (b := ("type", _)) ⟨rfl, htype⟩ .nil))
  have hroles : ∀ roles : List Role, Entries.Matched Equates
      (roles.flatMap fun role => Data.optionalMap role (maps role))
      (roles.flatMap fun role => Data.optionalMap role (maps' role)) := by
    intro roles
    induction roles with
    | nil => exact Entries.matched_of_forall₂ .nil
    | cons role rest ih => exact (optionalMap (hmaps role) role).append ih
  exact dict_iff.mpr
    (((hids.append (hvalue.optional _)).append (hdefault.optional _)).append (hroles Role.all))

theorem getD (h : Equates (.dict ds) (.dict es)) (k : String) {z : Data ν} (hz : Equates z z) :
    Equates (((Data.dict ds).get? k).getD z) (((Data.dict es).get? k).getD z) := by
  have h := dict_iff.mp h
  simp only [Data.get?]
  cases hx : Entries.find k ds with
  | none =>
    have hk := h.names k
    rw [hx] at hk
    rw [Option.not_isSome_iff_eq_none.mp (ne_true_of_eq_false hk.symm)]
    exact hz
  | some x =>
    obtain ⟨y, hy, hxy⟩ := h.exists_right hx
    rw [hy]
    exact hxy

/-- Nodes with equal forms have the same ids, equal values and defaults, and maps that match. -/
theorem of_nodeFields (h : Equates (.dict (LiveTree.nodeFields id typeId value default maps))
    (.dict (LiveTree.nodeFields id' typeId' value' default' maps'))) :
    (id = id' ∧ typeId = typeId') ∧ Equates value value' ∧ Equates default default' ∧
      ∀ role, Entries.Matched Equates (maps role) (maps' role) := by
  have hnull : Equates (.null : Data ν) .null := null_iff.mpr rfl
  have hempty : Equates (.dict [] : Data ν) (.dict []) :=
    dict_iff.mpr (Entries.matched_of_forall₂ .nil)
  refine ⟨⟨str_iff.mp (h.getD "id" hnull), ?_⟩, ?_, ?_, fun role => ?_⟩
  · exact str_iff.mp (getD (h.getD "type" hnull) "id" hnull)
  · have hfield := h.getD "value" hnull
    rwa [← Payload.anyField, ← Payload.anyField, anyField_value, anyField_value] at hfield
  · have hfield := h.getD "defaultValue" hnull
    rwa [← Payload.anyField, ← Payload.anyField, anyField_defaultValue,
      anyField_defaultValue] at hfield
  · have hmap := h.getD role.name hempty
    have hget : ∀ m : List (String × Data ν),
        (if m.isEmpty then none else some (Data.dict m)).getD (.dict []) = .dict m := fun m => by
      cases m <;> rfl
    rw [get?_role, get?_role, hget, hget] at hmap
    exact dict_iff.mp hmap

end NodeFields

end Equates

end Data

end LiveTree
