import LiveTree.Proofs.Form.Alike

/-! What a serialized form is. A form is related to what it is the form of, place by place; every
value whose parts end has a form, and serializing gives it, to every depth that is enough. -/

namespace LiveTree

variable {α β ν : Type} {s : Store} {v : Value} {d : Data ν}

/-- A field that is left out when there is nothing to say. -/
def Data.optional (name : String) : Data ν → List (String × Data ν)
  | .null => []
  | d => [(name, d)]

/-- A map that is left out when it is empty. -/
def Data.optionalMap (role : Role) (es : List (String × Data ν)) : List (String × Data ν) :=
  if es.isEmpty then [] else [(role.name, .dict es)]

/-- The fields of a serialized node. -/
def nodeFields (id typeId : String) (value default : Data ν)
    (maps : Role → List (String × Data ν)) : List (String × Data ν) :=
  [("id", .str id), ("type", .dict [("id", .str typeId)])] ++ Data.optional "value" value
    ++ Data.optional "defaultValue" default
    ++ Role.all.flatMap fun role => Data.optionalMap role (maps role)

/-- Whether data is the form of a value of a store. -/
inductive FormOf (s : Store) : Value → Data ν → Prop
  | none : FormOf s .none .null
  | bool (b : Bool) : FormOf s (.bool b) (.bool b)
  | int (i : Int) : FormOf s (.int i) (.int i)
  | float (x : Float) : FormOf s (.float x) (.float x)
  | str (t : String) : FormOf s (.str t) (.str t)
  | sequence {v : Value} {xs : List Value} {ds : List (Data ν)} (hv : s.sequence? v = some xs)
      (h : List.Forall₂ (FormOf s) xs ds) : FormOf s v (.list ds)
  | dict {r : DictRef} {es : List (String × Data ν)} (hkeys : es.map Prod.fst = (s.dict r).keys)
      (h : List.Forall₂ (FormOf s) (s.dict r).values (es.map Prod.snd)) :
      FormOf s (.dict r) (.dict es)
  | node {r : NodeRef} {value default : Data ν} {maps : Role → List (String × Data ν)}
      (hvalue : FormOf s (s.node r).value value) (hdefault : FormOf s (s.node r).default default)
      (hkeys : ∀ role, (maps role).map Prod.fst = ((s.node r).entries role).keys)
      (h : ∀ role, List.Forall₂ (fun q => FormOf s (.node q)) ((s.node r).entries role).values
        ((maps role).map Prod.snd)) :
      FormOf s (.node r) (.dict (nodeFields (s.node r).id (s.typeOf r).id value default maps))

/-! ### Every value without cycles has a form -/

theorem exists_partners {R : α → β → Prop} {l : List α} (h : ∀ a ∈ l, ∃ b, R a b) :
    ∃ bs, List.Forall₂ R l bs := by
  induction l with
  | nil => exact ⟨[], .nil⟩
  | cons a rest ih =>
    obtain ⟨b, hb⟩ := h a List.mem_cons_self
    obtain ⟨bs, hbs⟩ := ih fun c hc => h c (List.mem_cons_of_mem _ hc)
    exact ⟨b :: bs, .cons hb hbs⟩

/-- What each value of a map has, all of them have under the names of the map. -/
theorem exists_pairs {R : α → β → Prop} {m : Entries α} (h : ∀ a ∈ m.values, ∃ b, R a b) :
    ∃ es : List (String × β), es.map Prod.fst = m.keys ∧
      List.Forall₂ R m.values (es.map Prod.snd) := by
  have hpair : ∀ p ∈ m.toList, ∃ q : String × β, q.1 = p.1 ∧ R p.2 q.2 := fun p hp =>
    have ⟨b, hb⟩ := h p.2 (List.mem_map_of_mem hp)
    ⟨(p.1, b), rfl, hb⟩
  obtain ⟨es, hes⟩ := exists_partners hpair
  exact ⟨es, forall₂_pairs.mp hes⟩

theorem exists_form {n : ℕ} (h : EndsWithin s.parts n v) : ∃ d : Data ν, FormOf s v d := by
  induction n generalizing v with
  | zero => exact h.elim
  | succ n ih =>
    cases v with
    | none => exact ⟨_, .none⟩
    | bool b => exact ⟨_, .bool b⟩
    | int i => exact ⟨_, .int i⟩
    | float x => exact ⟨_, .float x⟩
    | str t => exact ⟨_, .str t⟩
    | list r =>
      obtain ⟨ds, hds⟩ := exists_partners fun p hp => ih (h p hp)
      exact ⟨_, .sequence rfl hds⟩
    | tuple r =>
      obtain ⟨ds, hds⟩ := exists_partners fun p hp => ih (h p hp)
      exact ⟨_, .sequence rfl hds⟩
    | dict r =>
      obtain ⟨es, hkeys, hes⟩ := exists_pairs fun p hp => ih (h p hp)
      exact ⟨_, .dict hkeys hes⟩
    | node r =>
      obtain ⟨value, hvalue⟩ := ih (h _ (s.node r).value_mem_parts)
      obtain ⟨default, hdefault⟩ := ih (h _ (s.node r).default_mem_parts)
      have hmap := fun role => exists_pairs (R := fun q => FormOf s (.node q)) fun q hq =>
        ih (h _ ((s.node r).entry_mem_parts role hq))
      choose maps hmaps using hmap
      exact ⟨_, .node hvalue hdefault (fun role => (hmaps role).1) fun role => (hmaps role).2⟩

/-! ### Serializing gives the form -/

theorem mapM_eq_ok {ε : Type} {f : α → Except ε β} {l : List α} {bs : List β}
    (h : List.Forall₂ (fun a b => f a = .ok b) l bs) : l.mapM f = .ok bs := by
  induction h with
  | nil => rfl
  | cons h _ ih => rw [List.mapM_cons, h, ih]; rfl

theorem bind_eq_ok {ε : Type} {r : Except ε α} {k : α → Except ε β} {b : β} (h : r >>= k = .ok b) :
    ∃ a, r = .ok a ∧ k a = .ok b := by
  cases r with
  | ok a => exact ⟨a, rfl, h⟩
  | error e => cases h

theorem bind_eq_ok_iff {ε : Type} {r : Except ε α} {k : α → Except ε β} {b : β} :
    r >>= k = .ok b ↔ ∃ a, r = .ok a ∧ k a = .ok b := by
  refine ⟨bind_eq_ok, ?_⟩
  rintro ⟨a, rfl, h⟩
  exact h

theorem map_eq_ok {ε : Type} {r : Except ε α} {f : α → β} {b : β} (h : f <$> r = .ok b) :
    ∃ a, r = .ok a ∧ f a = b := by
  cases r with
  | ok a => exact ⟨a, rfl, Except.ok.inj h⟩
  | error e => cases h

theorem forall₂_of_mapM {ε : Type} {f : α → Except ε β} {l : List α} {bs : List β}
    (h : l.mapM f = .ok bs) : List.Forall₂ (fun a b => f a = .ok b) l bs := by
  induction l generalizing bs with
  | nil =>
    cases h
    exact .nil
  | cons a rest ih =>
    rw [List.mapM_cons] at h
    obtain ⟨b, hb, h⟩ := bind_eq_ok h
    obtain ⟨bs, hbs, h⟩ := bind_eq_ok h
    cases h
    exact .cons hb (ih hbs)

theorem mapM_pairs_eq_ok {ε : Type} {f : α → Except ε β} {m : Entries α} {es : List (String × β)}
    (hkeys : es.map Prod.fst = m.keys)
    (h : List.Forall₂ (fun a b => f a = .ok b) m.values (es.map Prod.snd)) :
    (m.toList.mapM fun p => do return (p.1, ← f p.2)) = .ok es := by
  refine mapM_eq_ok ((forall₂_pairs.mpr ⟨hkeys, h⟩).imp fun p q hpq => ?_)
  rw [hpq.2, ← hpq.1]
  rfl

theorem FormOf.optional_eq (h : FormOf s v d) (name : String) :
    Data.optional name d = if v.isNone then [] else [(name, d)] := by
  cases h with
  | sequence hv => cases v <;> first | rfl | cases hv
  | _ => rfl

theorem FormOf.part_eq (h : FormOf s v d) (name : String) {n : ℕ} (hd : s.formTo n v = .ok d) :
    (if v.isNone then .ok [] else do return [(name, ← s.formTo n v)] :
      Except Fault (List (String × Data ν))) = .ok (Data.optional name d) := by
  rw [h.optional_eq name]
  split
  · rfl
  · rw [hd]; rfl

/-- Serializing to a depth that is enough gives the form. -/
theorem FormOf.formTo_eq (h : FormOf s v d) {n : ℕ} (hend : EndsWithin s.parts n v) :
    s.formTo n v = .ok d := by
  induction n generalizing v d with
  | zero => exact hend.elim
  | succ n ih =>
    cases h with
    | @sequence _ xs ds hv h =>
      have hparts := Store.parts_of_sequence hv
      have hforms := mapM_eq_ok <| forall₂_imp_mem h fun p hp d _ hpd =>
        ih hpd (hend p (hparts ▸ hp))
      rw [Store.formTo_sequence hv, hforms]
      rfl
    | @dict r es hkeys h =>
      have hforms := mapM_pairs_eq_ok hkeys <| forall₂_imp_mem h fun p hp d _ hpd =>
        ih hpd (hend p hp)
      exact congrArg (Data.dict <$> ·) hforms
    | @node r value default maps hvalue hdefault hkeys h =>
      have hvalue' := hvalue.part_eq "value" (ih hvalue (hend _ (s.node r).value_mem_parts))
      have hdefault' := hdefault.part_eq "defaultValue"
        (ih hdefault (hend _ (s.node r).default_mem_parts))
      have hmap : ∀ role, (if ((s.node r).entries role).toList.isEmpty then return []
          else do
            let forms ← ((s.node r).entries role).toList.mapM fun p => do
              return (p.1, ← s.formTo n (.node p.2))
            return [(role.name, Data.dict forms)] : Except Fault (List (String × Data ν))) =
          .ok (Data.optionalMap role (maps role)) := by
        intro role
        have hforms := mapM_pairs_eq_ok (f := fun q => s.formTo n (.node q)) (hkeys role) <|
          forall₂_imp_mem (h role) fun q hq d _ hqd =>
            ih hqd (hend _ ((s.node r).entry_mem_parts role hq))
        have hempty : ((s.node r).entries role).toList.isEmpty = (maps role).isEmpty := by
          simpa [Entries.keys] using (congrArg List.isEmpty (hkeys role)).symm
        rw [Data.optionalMap, hempty, hforms]
        split <;> rfl
      have hmaps : ∀ roles : List Role, roles.mapM (fun role => _) = Except.ok (ε := Fault)
          (roles.map fun role => Data.optionalMap role (maps role)) := fun roles =>
        mapM_eq_ok (List.forall₂_map_right_iff.mpr (List.forall₂_same.mpr fun role _ => hmap role))
      simp only [Store.formTo, hvalue', hdefault', hmaps]
      simp only [nodeFields, List.flatMap_def]
      rfl
    | _ => rfl

/-- A value without cycles is serialized to its form. -/
theorem Store.WellFormed.form_exists (hs : s.WellFormed) (hv : s.Has v) (ha : Acyclic s.parts v) :
    ∃ d : Data ν, FormOf s v d ∧ s.form v = .ok d :=
  have hend := hs.endsWithin hv ha
  have ⟨d, hd⟩ := exists_form hend
  ⟨d, hd, hd.formTo_eq hend⟩

end LiveTree
