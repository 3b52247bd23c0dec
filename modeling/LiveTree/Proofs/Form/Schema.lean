import LiveTree.Form.Shape
import LiveTree.Proofs.Form.Payload

/-! The schema of a serialized node. Reading data as a node succeeds just if the data has the
shape of one, map within map; what stands in the value and the default is free. -/

namespace LiveTree

variable {α β γ ν : Type}

/-- Whether data has the shape of a node in which the values satisfy a predicate. It has an id and
the id of a type, and its maps, where they are there, are dictionaries of such data. -/
inductive Data.HasShape (V : Data ν → Prop) : Data ν → Prop
  | mk {es : List (String × Data ν)} (hids : (Data.dict es).standsForNode = true)
      (hmaps : ∀ (role : Role) m, (Data.dict es).get? role.name = some m → ∃ entries, m = .dict entries)
      (hentries : ∀ (role : Role) entries, (Data.dict es).get? role.name = some (.dict entries) →
        ∀ e ∈ entries, HasShape V e.2)
      (hvalue : V (Payload.anyField "value" (.dict es)))
      (hdefault : V (Payload.defaultField (.dict es))) : HasShape V (.dict es)

/-- Whether the values in the parts of a node satisfy a predicate, in the maps too. -/
inductive Payload.Holds (V : Data ν → Prop) : Payload ν → Prop
  | mk {id typeId : String} {value default : Data ν}
      {metadata constraints children : List (String × Payload ν)} (hvalue : V value)
      (hdefault : V default) (hmetadata : ∀ q ∈ metadata, q.2.Holds V)
      (hconstraints : ∀ q ∈ constraints, q.2.Holds V) (hchildren : ∀ q ∈ children, q.2.Holds V) :
      Holds V (.mk id typeId value default metadata constraints children)

namespace Payload

variable {V : Data ν → Prop} {d : Data ν}

/-! ### Parts that are read, or not -/

theorem both_eq_ok {f : α → β → γ} {a : Checked α} {b : Checked β} {c : γ} :
    both f a b = .ok c ↔ ∃ x y, a = .ok x ∧ b = .ok y ∧ f x y = c := by
  cases a <;> cases b <;> simp [both]

theorem under_eq_ok {name : String} {c : Checked α} {a : α} : under name c = .ok a ↔ c = .ok a := by
  cases c <;> simp [under]

theorem textField_eq_ok {field t : String} :
    textField field d = .ok t ↔ d.get? field = some (.str t) := by
  rw [textField]
  split <;> simp_all [issue]

theorem typeField_eq_ok {t : String} :
    typeField d = .ok t ↔ (d.get? "type").bind (Data.get? "id") = some (.str t) := by
  rw [typeField]
  split
  · simp_all [issue]
  · rename_i entries h
    rw [under_eq_ok, textField_eq_ok, h]
    rfl
  · rename_i other hne h
    rw [h]
    cases other with
    | dict entries => exact absurd rfl (hne entries)
    | _ => simp [issue, Data.get?]

/-- Both ids are read just if data stands for a node. -/
theorem exists_ids_iff : (∃ ids, both Prod.mk (textField "id" d) (typeField d) = .ok ids) ↔
    d.standsForNode = true := by
  simp only [both_eq_ok, textField_eq_ok, typeField_eq_ok, Data.standsForNode_iff]
  constructor
  · rintro ⟨_, id, typeId, hid, htype, -⟩
    exact ⟨⟨id, hid⟩, typeId, htype⟩
  · rintro ⟨⟨id, hid⟩, typeId, htype⟩
    exact ⟨_, id, typeId, hid, htype, rfl⟩

/-! ### Maps -/

section Maps

variable {read : Data ν → Checked (Payload ν)}

theorem exists_entriesField_iff {es : List (String × Data ν)}
    (h : ∀ e ∈ es, (∃ p, read e.2 = .ok p ∧ p.Holds V) ↔ e.2.HasShape V) :
    (∃ ps, entriesField read es = .ok ps ∧ ∀ q ∈ ps, q.2.Holds V) ↔ ∀ e ∈ es, e.2.HasShape V := by
  induction es with
  | nil => simp [entriesField]
  | cons e rest ih =>
    obtain ⟨hfirst, hrest⟩ := List.forall_mem_cons.mp h
    rw [List.forall_mem_cons, ← hfirst, ← ih hrest]
    simp only [entriesField, both_eq_ok, under_eq_ok]
    constructor
    · rintro ⟨_, ⟨p, ps, hp, hps, rfl⟩, hq⟩
      rw [List.forall_mem_cons] at hq
      exact ⟨⟨p, hp, hq.1⟩, ps, hps, hq.2⟩
    · rintro ⟨⟨p, hp, hq⟩, ps, hps, hqs⟩
      exact ⟨_, ⟨p, ps, hp, hps, rfl⟩, List.forall_mem_cons.mpr ⟨hq, hqs⟩⟩

theorem exists_mapField_iff {role : Role}
    (h : ∀ es, d.get? role.name = some (.dict es) →
      ∀ e ∈ es, (∃ p, read e.2 = .ok p ∧ p.Holds V) ↔ e.2.HasShape V) :
    (∃ ps, mapField read role d = .ok ps ∧ ∀ q ∈ ps, q.2.Holds V) ↔
      (∀ m, d.get? role.name = some m → ∃ es, m = .dict es) ∧
        ∀ es, d.get? role.name = some (.dict es) → ∀ e ∈ es, e.2.HasShape V := by
  rw [mapField]
  split
  · rename_i hnone
    simp [hnone]
  · rename_i es hes
    simp only [under_eq_ok, exists_entriesField_iff (h es hes), hes, Option.some.injEq,
      Data.dict.injEq, forall_eq', exists_eq', true_and]
  · rename_i m hne hm
    simp only [issue, reduceCtorEq, false_and, exists_false, false_iff]
    rintro ⟨hmap, -⟩
    obtain ⟨es, rfl⟩ := hmap m hm
    exact hne es rfl

end Maps

/-! ### Nodes -/

/-- Data is read as a node in which the values satisfy a predicate just if it has that shape. -/
theorem exists_readTo_iff {n : ℕ} (hn : d.depth < n) :
    (∃ p, readTo n d = .ok p ∧ p.Holds V) ↔ d.HasShape V := by
  induction n generalizing d with
  | zero => omega
  | succ n ih =>
    cases d with
    | dict es =>
      have hrole : ∀ role : Role, (∃ ps, mapField (readTo n) role (.dict es) = .ok ps ∧
          ∀ q ∈ ps, q.2.Holds V) ↔ _ := fun role =>
        exists_mapField_iff fun entries hentries e he => ih <| by
          have hmap := Data.depth_lt_dict (Entries.mem_of_find_eq_some hentries)
          have hentry := Data.depth_lt_dict he
          omega
      rw [readTo]
      simp only [both_eq_ok]
      constructor
      · rintro ⟨_, ⟨ids, _, hids, ⟨me, _, hme, ⟨co, ch, hco, hch, rfl⟩, rfl⟩, rfl⟩, hp⟩
        cases hp with
        | mk hvalue hdefault hmes hcos hchs =>
          have hmaps : ∀ role : Role, _ := fun role => (hrole role).mp <| by
            cases role with
            | metadata => exact ⟨me, hme, hmes⟩
            | constraints => exact ⟨co, hco, hcos⟩
            | children => exact ⟨ch, hch, hchs⟩
          exact .mk (exists_ids_iff.mp ⟨ids, both_eq_ok.mpr hids⟩) (fun role => (hmaps role).1)
            (fun role => (hmaps role).2) hvalue hdefault
      · rintro ⟨hids, hmaps, hentries, hvalue, hdefault⟩
        obtain ⟨ids, hids⟩ := exists_ids_iff.mpr hids
        obtain ⟨me, hme, hmes⟩ := (hrole .metadata).mpr ⟨hmaps _, hentries _⟩
        obtain ⟨co, hco, hcos⟩ := (hrole .constraints).mpr ⟨hmaps _, hentries _⟩
        obtain ⟨ch, hch, hchs⟩ := (hrole .children).mpr ⟨hmaps _, hentries _⟩
        exact ⟨_, ⟨ids, _, both_eq_ok.mp hids, ⟨me, _, hme, ⟨co, ch, hco, hch, rfl⟩, rfl⟩, rfl⟩,
          .mk hvalue hdefault hmes hcos hchs⟩
    | _ =>
      constructor
      · rintro ⟨_, ⟨⟩, _⟩
      · rintro ⟨⟩

theorem Holds.mono {P : Data ν → Prop} {p : Payload ν} (h : p.Holds V) (hVP : ∀ e, V e → P e) :
    p.Holds P := by
  induction h with
  | mk hvalue hdefault _ _ _ hmetadata hconstraints hchildren =>
    exact .mk (hVP _ hvalue) (hVP _ hdefault) hmetadata hconstraints hchildren

/-- The values of a node satisfy what holds of everything. -/
theorem holds_of_forall (h : ∀ e, V e) : ∀ p : Payload ν, p.Holds V
  | .mk _ _ _ _ metadata constraints children =>
    .mk (h _) (h _) (entries metadata) (entries constraints) (entries children)
where
  entries : ∀ (ps : List (String × Payload ν)), ∀ q ∈ ps, q.2.Holds V
    | [] => by simp
    | q :: rest => List.forall_mem_cons.mpr ⟨holds_of_forall h q.2, entries rest⟩

end Payload

/-- What holds of the values in the parts that were read is what the data has by its shape. -/
theorem Payload.holds_iff {V : Data ν → Prop} {d : Data ν} {p : Payload ν}
    (hp : ofData d = .ok p) : p.Holds V ↔ d.HasShape V := by
  rw [← exists_readTo_iff (Nat.lt_succ_self _), ← ofData, hp]
  simp

/-- In data of some shape, the values satisfy whatever is passed on from dictionaries to their
entries, if the entries of the data satisfy it. -/
theorem Data.HasShape.within {V P : Data ν → Prop} {d : Data ν} (h : d.HasShape V)
    (hnull : P .null) (hdict : ∀ es, P (.dict es) → ∀ e ∈ es, P e.2)
    (hd : ∀ k e, d.get? k = some e → P e) : d.HasShape P := by
  induction h with
  | @mk es hids hmaps _ _ _ ih =>
    have hany : ∀ field, P (Payload.anyField field (.dict es)) := by
      intro field
      rw [Payload.anyField]
      cases hfield : (Data.dict es).get? field with
      | none => exact hnull
      | some e => exact hd field e hfield
    refine .mk hids hmaps (fun role entries hentries e he => ?_) (hany "value") ?_
    · refine ih role entries hentries e he fun k x hx => ?_
      have he' : P e.2 := hdict entries (hd _ _ hentries) e he
      cases heq : e.2 with
      | dict es' =>
        rw [heq] at he' hx
        exact hdict es' he' _ (Entries.mem_of_find_eq_some hx)
      | _ => rw [heq] at hx; cases hx
    · rw [Payload.defaultField]
      split
      · rename_i e he
        exact hd _ e he
      · exact hany "default_value"

/-- So do the values in the parts that were read. -/
theorem Payload.holds_within {P : Data ν → Prop} {d : Data ν} {p : Payload ν}
    (hp : ofData d = .ok p) (hnull : P .null) (hdict : ∀ es, P (.dict es) → ∀ e ∈ es, P e.2)
    (hd : ∀ k e, d.get? k = some e → P e) : p.Holds P :=
  have hshape := (holds_iff hp).mp (holds_of_forall (V := fun _ => True) (fun _ => trivial) p)
  (holds_iff hp).mpr (hshape.within hnull hdict hd)

end LiveTree
