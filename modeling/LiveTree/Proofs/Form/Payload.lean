import LiveTree.Form.Shape
import LiveTree.Proofs.Form.Written

/-! The form of a node has the shape of one. Its fields read back as they were written, those that
were left out as absent or empty, so the parts that are read are forms of the parts of the node. -/

namespace LiveTree

variable {α ν : Type} {s : Store} {v : Value} {d : Data ν} {r : NodeRef}

/-! ### Depth -/

namespace Data

theorem depth_le_depthAll {items : List (Data ν)} (h : d ∈ items) : d.depth ≤ depthAll items := by
  induction items with
  | nil => cases h
  | cons a rest ih =>
    rw [depthAll]
    rcases List.mem_cons.mp h with rfl | h
    · exact Nat.le_max_left _ _
    · exact Nat.le_trans (ih h) (Nat.le_max_right _ _)

theorem depth_le_depthEntries {es : List (String × Data ν)} {k : String} (h : (k, d) ∈ es) :
    d.depth ≤ depthEntries es := by
  induction es with
  | nil => cases h
  | cons p rest ih =>
    obtain ⟨k', a⟩ := p
    rw [depthEntries]
    rcases List.mem_cons.mp h with e | h
    · cases e
      exact Nat.le_max_left _ _
    · exact Nat.le_trans (ih h) (Nat.le_max_right _ _)

theorem depth_lt_list {items : List (Data ν)} (h : d ∈ items) : d.depth < (list items).depth :=
  Nat.lt_succ_of_le (depth_le_depthAll h)

theorem depth_lt_dict {es : List (String × Data ν)} {k : String} (h : (k, d) ∈ es) :
    d.depth < (dict es).depth := Nat.lt_succ_of_le (depth_le_depthEntries h)

/-! ### Fields -/

theorem standsForNode_iff : d.standsForNode = true ↔ (∃ t, d.get? "id" = some (.str t)) ∧
    ∃ t, (d.get? "type").bind (get? "id") = some (.str t) := by
  rw [standsForNode]
  split
  · rename_i t t' hid htype
    exact iff_of_true rfl ⟨⟨t, hid⟩, t', htype⟩
  · rename_i hne
    exact iff_of_false nofun fun ⟨⟨t, hid⟩, t', htype⟩ => hne t t' hid htype

theorem find_optional_of_ne {name k : String} (h : name ≠ k) :
    Entries.find k (optional name d) = none := by
  cases d <;> simp [optional, Entries.find, h]

theorem find_optional (name : String) (d : Data ν) :
    (Entries.find name (optional name d)).getD .null = d := by
  cases d <;> simp [optional, Entries.find]

theorem find_optionalMap_of_ne {role : Role} {es : List (String × Data ν)} {k : String}
    (h : role.name ≠ k) : Entries.find k (optionalMap role es) = none := by
  rw [optionalMap]
  split
  · rfl
  · simp [Entries.find, h]

theorem find_optionalMap (role : Role) (es : List (String × Data ν)) :
    Entries.find role.name (optionalMap role es) =
      if es.isEmpty then none else some (.dict es) := by
  rw [optionalMap]
  split
  · rfl
  · simp [Entries.find]

end Data

section Fields

variable (id typeId : String) (value default : Data ν) (maps : Role → List (String × Data ν))

theorem get?_id :
    (Data.dict (nodeFields id typeId value default maps)).get? "id" = some (.str id) := rfl

theorem get?_type : (Data.dict (nodeFields id typeId value default maps)).get? "type" =
    some (.dict [("id", .str typeId)]) := rfl

theorem find_maps_of_ne {k : String} {roles : List Role} (h : ∀ role ∈ roles, role.name ≠ k) :
    Entries.find k (roles.flatMap fun role => Data.optionalMap role (maps role)) = none := by
  induction roles with
  | nil => rfl
  | cons role rest ih =>
    rw [List.forall_mem_cons] at h
    rw [List.flatMap_cons, Entries.find_append, Data.find_optionalMap_of_ne h.1, ih h.2]
    rfl

theorem anyField_value :
    Payload.anyField "value" (.dict (nodeFields id typeId value default maps)) = value := by
  have hmaps := find_maps_of_ne maps (k := "value") (by decide : ∀ role ∈ Role.all, _)
  have hdefault : Entries.find "value" (Data.optional "defaultValue" default) = none :=
    Data.find_optional_of_ne (by decide)
  simp only [Payload.anyField, Data.get?, nodeFields, Entries.find_append, hmaps, hdefault,
    Option.or_none]
  exact Data.find_optional "value" value

theorem anyField_defaultValue :
    Payload.anyField "defaultValue" (.dict (nodeFields id typeId value default maps)) =
      default := by
  have hmaps := find_maps_of_ne maps (k := "defaultValue") (by decide : ∀ role ∈ Role.all, _)
  have hvalue : Entries.find "defaultValue" (Data.optional "value" value) = none :=
    Data.find_optional_of_ne (by decide)
  simp only [Payload.anyField, Data.get?, nodeFields, Entries.find_append, hmaps, hvalue,
    Option.or_none]
  exact Data.find_optional "defaultValue" default

theorem defaultField_eq :
    Payload.defaultField (.dict (nodeFields id typeId value default maps)) = default := by
  have hmaps := find_maps_of_ne maps (k := "default_value") (by decide : ∀ role ∈ Role.all, _)
  have hvalue : Entries.find "default_value" (Data.optional "value" value) = none :=
    Data.find_optional_of_ne (by decide)
  have hdefault : Entries.find "default_value" (Data.optional "defaultValue" default) = none :=
    Data.find_optional_of_ne (by decide)
  have hother : Payload.anyField "default_value"
      (.dict (nodeFields id typeId value default maps)) = .null := by
    simp only [Payload.anyField, Data.get?, nodeFields, Entries.find_append, hmaps, hvalue,
      hdefault, Option.or_none]
    rfl
  have hread := anyField_defaultValue id typeId value default maps
  rw [Payload.anyField] at hread
  rw [Payload.defaultField, hother]
  split
  · rename_i found
    rwa [found] at hread
  · rename_i found
    rwa [found] at hread

theorem get?_role (role : Role) :
    (Data.dict (nodeFields id typeId value default maps)).get? role.name =
      if (maps role).isEmpty then none else some (.dict (maps role)) := by
  have hvalue : Entries.find role.name (Data.optional "value" value) = none :=
    Data.find_optional_of_ne (by cases role <;> decide)
  have hdefault : Entries.find role.name (Data.optional "defaultValue" default) = none :=
    Data.find_optional_of_ne (by cases role <;> decide)
  have hids : Entries.find role.name
      [("id", (.str id : Data ν)), ("type", .dict [("id", .str typeId)])] = none := by
    cases role <;> rfl
  have hother : ∀ other : Role, other ≠ role →
      Entries.find role.name (Data.optionalMap other (maps other)) = none := fun other h =>
    Data.find_optionalMap_of_ne (by revert h; cases other <;> cases role <;> decide)
  have hmaps : Entries.find role.name (Role.all.flatMap fun role =>
      Data.optionalMap role (maps role)) =
        Entries.find role.name (Data.optionalMap role (maps role)) := by
    simp only [Role.all, List.flatMap_cons, List.flatMap_nil, Entries.find_append]
    cases role <;> simp [hother, Entries.find]
  simp only [Data.get?, nodeFields, Entries.find_append, hids, hvalue, hdefault, hmaps,
    Option.none_or, Data.find_optionalMap]

end Fields

/-! ### The parts that are read -/

/-- Whether the parts that have been read of a form are forms of the parts of a node, none of them
as deep as a bound. -/
inductive PayloadOf (s : Store) (bound : ℕ) : NodeRef → Payload ν → Prop
  | mk {r : NodeRef} {value default : Data ν} {maps : Role → List (String × Payload ν)}
      (hvalue : FormOf s (s.node r).value value) (hdefault : FormOf s (s.node r).default default)
      (hvalueDepth : value.depth < bound) (hdefaultDepth : default.depth < bound)
      (hkeys : ∀ role, (maps role).map Prod.fst = ((s.node r).entries role).keys)
      (h : ∀ role, List.Forall₂ (PayloadOf s bound) ((s.node r).entries role).values
        ((maps role).map Prod.snd)) :
      PayloadOf s bound r (.mk (s.node r).id (s.typeOf r).id value default (maps .metadata)
        (maps .constraints) (maps .children))

theorem exists_forall₂_comp {α β γ : Type} {R : α → β → Prop} {S : β → γ → Prop} {T : α → γ → Prop}
    {xs : List α} {ys : List β} (h : List.Forall₂ R xs ys)
    (hRS : ∀ x ∈ xs, ∀ y ∈ ys, R x y → ∃ z, S y z ∧ T x z) :
    ∃ zs, List.Forall₂ S ys zs ∧ List.Forall₂ T xs zs := by
  induction h with
  | nil => exact ⟨[], .nil, .nil⟩
  | cons hxy _ ih =>
    obtain ⟨z, hS, hT⟩ := hRS _ List.mem_cons_self _ List.mem_cons_self hxy
    obtain ⟨zs, hSs, hTs⟩ := ih fun x hx y hy =>
      hRS x (List.mem_cons_of_mem _ hx) y (List.mem_cons_of_mem _ hy)
    exact ⟨z :: zs, .cons hS hSs, .cons hT hTs⟩

theorem entriesField_eq_ok {read : Data ν → Payload.Checked (Payload ν)}
    {es : List (String × Data ν)} {ps : List (String × Payload ν)}
    (h : List.Forall₂ (fun e p => p.1 = e.1 ∧ read e.2 = .ok p.2) es ps) :
    Payload.entriesField read es = .ok ps := by
  induction h with
  | nil => rfl
  | @cons e p _ _ h _ ih =>
    obtain ⟨k, d⟩ := e
    obtain ⟨k', q⟩ := p
    obtain ⟨rfl, hread⟩ := h
    rw [Payload.entriesField, ih, hread]
    rfl

/-- What is read of a map that was written, or left out because it is empty. -/
theorem mapField_eq_ok {read : Data ν → Payload.Checked (Payload ν)} {id typeId : String}
    {value default : Data ν} {maps : Role → List (String × Data ν)} {role : Role}
    {ps : List (String × Payload ν)}
    (h : List.Forall₂ (fun e p => p.1 = e.1 ∧ read e.2 = .ok p.2) (maps role) ps) :
    Payload.mapField read role (.dict (nodeFields id typeId value default maps)) = .ok ps := by
  have hentries := entriesField_eq_ok h
  rw [Payload.mapField, get?_role]
  cases hmap : maps role with
  | nil =>
    rw [hmap] at hentries
    exact hentries
  | cons e rest =>
    rw [hmap] at hentries
    simp only [List.isEmpty_cons, Bool.false_eq_true, if_false, hentries]
    rfl

theorem depth_lt_of_optional (name : String) {es : List (String × Data ν)}
    (h : Data.optional name d ⊆ es) : d.depth < (Data.dict es).depth := by
  cases d with
  | null => exact Nat.succ_pos _
  | _ => exact Data.depth_lt_dict (h List.mem_cons_self)

/-- The parts of a serialized node are less deep than the node. -/
theorem depth_lt_nodeFields (id typeId : String) (value default : Data ν)
    (maps : Role → List (String × Data ν)) :
    value.depth < (Data.dict (nodeFields id typeId value default maps)).depth ∧
      default.depth < (Data.dict (nodeFields id typeId value default maps)).depth ∧
      ∀ role, ∀ e ∈ maps role,
        e.2.depth < (Data.dict (nodeFields id typeId value default maps)).depth := by
  refine ⟨depth_lt_of_optional "value" fun e he => ?_,
    depth_lt_of_optional "defaultValue" fun e he => ?_, ?_⟩
  · exact List.mem_append_left _ (List.mem_append_left _ (List.mem_append_right _ he))
  · exact List.mem_append_left _ (List.mem_append_right _ he)
  · intro role e he
    have hfield : (role.name, Data.dict (maps role)) ∈ nodeFields id typeId value default maps := by
      refine List.mem_append_right _ (List.mem_flatMap.mpr ⟨role, by cases role <;> decide, ?_⟩)
      rw [Data.optionalMap, if_neg (by simpa using List.ne_nil_of_mem he)]
      exact List.mem_singleton.mpr rfl
    exact Nat.lt_trans (Data.depth_lt_dict he) (Data.depth_lt_dict hfield)

/-- The form of a node reads as the parts of the node. -/
theorem exists_payload {m bound : ℕ} (h : FormOf s (.node r) d) (hm : d.depth < m)
    (hbound : d.depth ≤ bound) :
    ∃ p, Payload.readTo m d = .ok p ∧ PayloadOf s bound r p := by
  induction m generalizing r d with
  | zero => omega
  | succ m ih =>
    cases h with
    | sequence hv => cases hv
    | @node _ value default maps hvalue hdefault hkeys h =>
      obtain ⟨hvalueDepth, hdefaultDepth, hmapDepth⟩ :=
        depth_lt_nodeFields (s.node r).id (s.typeOf r).id value default maps
      have hrole : ∀ role, ∃ ps : List (String × Payload ν),
          List.Forall₂ (fun e p => p.1 = e.1 ∧ Payload.readTo m e.2 = .ok p.2) (maps role) ps ∧
          List.Forall₂ (fun q p => p.1 = q.1 ∧ PayloadOf s bound q.2 p.2)
            ((s.node r).entries role).toList ps := by
        intro role
        refine exists_forall₂_comp (forall₂_pairs.mpr ⟨hkeys role, h role⟩) fun q _ e he hqe => ?_
        have hdepth := hmapDepth role e he
        obtain ⟨p, hread, hp⟩ := ih hqe.2 (by omega) (by omega)
        exact ⟨(e.1, p), ⟨rfl, hread⟩, hqe.1, hp⟩
      choose ps hread hps using hrole
      refine ⟨.mk (s.node r).id (s.typeOf r).id value default (ps .metadata) (ps .constraints)
        (ps .children), ?_, .mk hvalue hdefault (by omega) (by omega)
          (fun role => (forall₂_pairs.mp (hps role)).1) fun role => (forall₂_pairs.mp (hps role)).2⟩
      rw [Payload.readTo]
      simp only [Payload.textField, Payload.typeField, get?_id, get?_type, anyField_value,
        defaultField_eq, mapField_eq_ok (hread .metadata), mapField_eq_ok (hread .constraints),
        mapField_eq_ok (hread .children)]
      rfl

end LiveTree
