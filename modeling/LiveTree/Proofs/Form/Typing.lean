import LiveTree.Proofs.Form.Resolver
import LiveTree.Proofs.Form.Schema

/-! The types of what is rebuilt. A record names its type by id only. Whatever record is accepted,
each node made of it, in maps and in values at any depth, has a type of that id, and nodes share
their type just if the ids are equal: the last type given under the id, else the built-in type,
else one placeholder. Who asks the same table for the id later gets that type again. -/

namespace LiveTree

open Store

variable {α β : Type} {s t : Store} {v : Value} {r : NodeRef}

/-- The records that data has in a map. -/
def Data.records (d : Data NodeRef) (role : Role) : List (String × Data NodeRef) :=
  match d.get? role.name with
  | some (.dict es) => es
  | _ => []

/-- What data has become in a store: a record that stands for a node a node, with what its fields
have become, and of the type that a table has under the id that the record gives; anything else
what it was. Inside a tuple all data stays as it is. -/
inductive Data.Becomes (table : TypeTable) (t : Store) : Bool → Data NodeRef → Value → Prop
  | null (asIs : Bool) : Becomes table t asIs .null .none
  | bool (asIs b : Bool) : Becomes table t asIs (.bool b) (.bool b)
  | int (asIs : Bool) (i : Int) : Becomes table t asIs (.int i) (.int i)
  | float (asIs : Bool) (x : Float) : Becomes table t asIs (.float x) (.float x)
  | str (asIs : Bool) (x : String) : Becomes table t asIs (.str x) (.str x)
  | leaf (asIs : Bool) (r : NodeRef) : Becomes table t asIs (.leaf r) (.node r)
  | list {asIs : Bool} {items : List (Data NodeRef)} {r : ListRef}
      (hlength : items.length = (t.list r).length)
      (h : ∀ d v, (d, v) ∈ items.zip (t.list r) → Becomes table t asIs d v) :
    Becomes table t asIs (.list items) (.list r)
  | tuple {asIs : Bool} {items : List (Data NodeRef)} {r : TupleRef}
      (hlength : items.length = (t.tuple r).length)
      (h : ∀ d v, (d, v) ∈ items.zip (t.tuple r) → Becomes table t true d v) :
    Becomes table t asIs (.tuple items) (.tuple r)
  | dict {asIs : Bool} {es : List (String × Data NodeRef)} {l : List (String × Value)} {r : DictRef}
      (hplain : asIs = false → (Data.dict es).standsForNode = false) (hdict : t.dict r = .ofList l)
      (hkeys : l.map Prod.fst = es.map Prod.fst)
      (h : ∀ d v, (d, v) ∈ (es.map Prod.snd).zip (l.map Prod.snd) → Becomes table t asIs d v) :
    Becomes table t asIs (.dict es) (.dict r)
  | node {d : Data NodeRef} {q : NodeRef} {id typeId : String}
      {maps : Role → List (String × NodeRef)} (hid : d.get? "id" = some (.str id))
      (htypeId : (d.get? "type").bind (Data.get? "id") = some (.str typeId))
      (hnode : (t.node q).id = id) (htype : table.get? typeId = some (t.node q).type)
      (hvalue : Becomes table t false (Payload.anyField "value" d) (t.node q).value)
      (hdefault : Becomes table t false (Payload.defaultField d) (t.node q).default)
      (hmaps : ∀ role, (t.node q).entries role = .ofList (maps role))
      (hkeys : ∀ role, (maps role).map Prod.fst = (d.records role).map Prod.fst)
      (h : ∀ role e r, (e, r) ∈ ((d.records role).map Prod.snd).zip ((maps role).map Prod.snd) →
        Becomes table t false e (.node r)) :
    Becomes table t false d (.node q)

namespace Payload

theorem entriesField_parts {ν : Type} {read : Data ν → Checked (Payload ν)}
    {es : List (String × Data ν)} {ps : List (String × Payload ν)}
    (h : entriesField read es = .ok ps) :
    List.Forall₂ (fun e p => p.1 = e.1 ∧ read e.2 = .ok p.2) es ps := by
  induction es generalizing ps with
  | nil =>
    cases h
    exact .nil
  | cons e rest ih =>
    obtain ⟨k, d⟩ := e
    rw [entriesField] at h
    obtain ⟨p, qs, hp, hqs, rfl⟩ := both_eq_ok.mp h
    exact .cons ⟨rfl, under_eq_ok.mp hp⟩ (ih hqs)

theorem mapField_parts {read : Data NodeRef → Checked (Payload NodeRef)} {role : Role}
    {d : Data NodeRef} {ps : List (String × Payload NodeRef)} (h : mapField read role d = .ok ps) :
    List.Forall₂ (fun e p => p.1 = e.1 ∧ read e.2 = .ok p.2) (d.records role) ps := by
  rw [mapField] at h
  rw [Data.records]
  split at h <;> rename_i hget
  · cases h
    rw [hget]
    exact .nil
  · rw [hget]
    exact entriesField_parts (under_eq_ok.mp h)
  · cases h

/-- The parts that are read of a record are its fields. -/
theorem readTo_parts {n : ℕ} {d : Data NodeRef} {p : Payload NodeRef}
    (h : readTo n d = .ok p) : ∃ m id typeId metadata constraints children,
      p = .mk id typeId (anyField "value" d) (defaultField d) metadata constraints children ∧
      d.get? "id" = some (.str id) ∧ (d.get? "type").bind (Data.get? "id") = some (.str typeId) ∧
      n = m + 1 ∧ ∀ role, List.Forall₂ (fun e p => p.1 = e.1 ∧ readTo m e.2 = .ok p.2)
        (d.records role) (match role with
          | .metadata => metadata
          | .constraints => constraints
          | .children => children) := by
  cases n with
  | zero => cases h
  | succ n =>
    cases d with
    | dict es =>
      rw [readTo] at h
      obtain ⟨ids, maps, hids, hmaps, rfl⟩ := both_eq_ok.mp h
      obtain ⟨id, typeId, hid, htypeId, rfl⟩ := both_eq_ok.mp hids
      obtain ⟨metadata, rest, hmetadata, hrest, rfl⟩ := both_eq_ok.mp hmaps
      obtain ⟨constraints, children, hconstraints, hchildren, rfl⟩ := both_eq_ok.mp hrest
      refine ⟨n, id, typeId, metadata, constraints, children, rfl, textField_eq_ok.mp hid,
        typeField_eq_ok.mp htypeId, rfl, fun role => ?_⟩
      cases role with
      | metadata => exact mapField_parts hmetadata
      | constraints => exact mapField_parts hconstraints
      | children => exact mapField_parts hchildren
    | _ => cases h

end Payload

/-! ### Rebuilding -/

theorem Rebuilds.newTuple (l : List Value) :
    Rebuilds s (StoreM.update (·.newTuple l) : RebuildM Value)
      fun t v => ∃ r, v = .tuple r ∧ t.tuple r = l :=
  .update (fun _ => extends_allocTuple l) fun s₁ t _ ht => by
    have hhas : (s₁.newTuple l).2.Has (s₁.newTuple l).1 := by
      simp [Has, Store.newTuple, allocTuple]
    exact ⟨_, rfl, Eq.trans (ht.agree hhas) (tuple_allocTuple (s := s₁) l)⟩

/-- A new node holds what it is made of, whatever its type is. -/
theorem Rebuilds.content (id : String) (type : NodeRef) (c : Content) :
    Rebuilds s (Make.node id type c : RebuildM NodeRef) fun t r => ∃ kind, t.node r =
      ⟨id, type, kind, c.value, c.default, c.metadata, c.constraints, c.children⟩ :=
  .update (fun _ => extends_allocNode _) fun s₁ t _ ht => by
    have hhas : ∀ n, (s₁.allocNode n).2.Has (.node (s₁.allocNode n).1) := fun n => by
      simp [Has, allocNode]
    exact ⟨_, Eq.trans (ht.agree (hhas _)) (node_allocNode_self s₁ _)⟩

namespace Data.Becomes

variable {table : TypeTable} {asIs : Bool}

theorem of_list {items : List (Data NodeRef)} {r : ListRef}
    (h : List.Forall₂ (Becomes table t asIs) items (t.list r)) :
    Becomes table t asIs (.list items) (.list r) :=
  have h := List.forall₂_iff_zip.mp h
  .list h.1 fun _ _ hmem => h.2 hmem

theorem of_tuple {items : List (Data NodeRef)} {r : TupleRef}
    (h : List.Forall₂ (Becomes table t true) items (t.tuple r)) :
    Becomes table t asIs (.tuple items) (.tuple r) :=
  have h := List.forall₂_iff_zip.mp h
  .tuple h.1 fun _ _ hmem => h.2 hmem

theorem of_dict {es : List (String × Data NodeRef)} {l : List (String × Value)} {r : DictRef}
    (hplain : asIs = false → (Data.dict es).standsForNode = false) (hdict : t.dict r = .ofList l)
    (h : List.Forall₂ (fun e w => w.1 = e.1 ∧ Becomes table t asIs e.2 w.2) es l) :
    Becomes table t asIs (.dict es) (.dict r) :=
  have h := forall₂_pairs.mp h
  .dict hplain hdict h.1 fun _ _ hmem => (List.forall₂_iff_zip.mp h.2).2 hmem

theorem of_node {d : Data NodeRef} {q : NodeRef} {id typeId : String}
    {maps : Role → List (String × NodeRef)} (hid : d.get? "id" = some (.str id))
    (htypeId : (d.get? "type").bind (Data.get? "id") = some (.str typeId))
    (hnode : (t.node q).id = id) (htype : table.get? typeId = some (t.node q).type)
    (hvalue : Becomes table t false (Payload.anyField "value" d) (t.node q).value)
    (hdefault : Becomes table t false (Payload.defaultField d) (t.node q).default)
    (hmaps : ∀ role, (t.node q).entries role = .ofList (maps role))
    (h : ∀ role, List.Forall₂ (fun e w => w.1 = e.1 ∧ Becomes table t false e.2 (.node w.2))
      (d.records role) (maps role)) :
    Becomes table t false d (.node q) :=
  have h := fun role => forall₂_pairs.mp (h role)
  .node hid htypeId hnode htype hvalue hdefault hmaps (fun role => (h role).1)
    fun role _ _ hmem => (List.forall₂_iff_zip.mp (h role).2).2 hmem

end Data.Becomes

namespace Supplies

variable {x : Stock} {asIs : Bool} {f : Data NodeRef → RebuildM Value}

/-- A list of what the items have become. -/
theorem list (h : ∀ d x, Supplies x (f d) fun z v => d.Becomes z.table z.store asIs v)
    (items : List (Data NodeRef)) :
    Supplies x (do let vs ← items.mapM f; StoreM.update (·.newList vs)) fun z v =>
      (Data.list items).Becomes z.table z.store asIs v := by
  refine .bind (.mapM (fun d _ => h d) x) fun vs y _ hvs => ?_
  refine (update (.newList vs)).mono fun z v hz hv => ?_
  obtain ⟨r, rfl, -, hlist⟩ := hv
  exact .of_list (hlist.symm ▸ hvs z hz)

/-- A tuple of the items as they were. -/
theorem tuple (h : ∀ d x, Supplies x (f d) fun z v => d.Becomes z.table z.store true v)
    (items : List (Data NodeRef)) :
    Supplies x (do let vs ← items.mapM f; StoreM.update (·.newTuple vs)) fun z v =>
      (Data.tuple items).Becomes z.table z.store asIs v := by
  refine .bind (.mapM (fun d _ => h d) x) fun vs y _ hvs => ?_
  refine (update (.newTuple vs)).mono fun z v hz hv => ?_
  obtain ⟨r, rfl, htuple⟩ := hv
  exact .of_tuple (htuple.symm ▸ hvs z hz)

/-- A dictionary of what the entries have become. -/
theorem dict (h : ∀ d x, Supplies x (f d) fun z v => d.Becomes z.table z.store asIs v)
    {es : List (String × Data NodeRef)}
    (hplain : asIs = false → (Data.dict es).standsForNode = false) :
    Supplies x (do
        let vs ← es.mapM fun e => do return (e.1, ← f e.2)
        StoreM.update (·.newDict (.ofList vs))) fun z v =>
      (Data.dict es).Becomes z.table z.store asIs v := by
  refine .bind (.mapM (T := fun z e w => w.1 = e.1 ∧ e.2.Becomes z.table z.store asIs w.2)
    (fun e _ y => (h e.2 y).bind fun v y' _ hv => .pure fun z hz => ⟨rfl, hv z hz⟩) x)
    fun l y _ hl => ?_
  refine (update (.newDict (.ofList l))).mono fun z v hz hv => ?_
  obtain ⟨r, rfl, -, hdict⟩ := hv
  exact .of_dict hplain hdict (hl z hz)

end Supplies

/-- Data that is kept as it is becomes what it was. -/
theorem supplies_keepTo (n : ℕ) (d : Data NodeRef) (x : Stock) :
    Supplies x (Data.rebuildTo.keepTo n d) fun z v => d.Becomes z.table z.store true v := by
  induction n generalizing d x with
  | zero => exact .throw _
  | succ n ih =>
    cases d with
    | null => exact .pure fun _ _ => .null _
    | bool b => exact .pure fun _ _ => .bool _ b
    | int i => exact .pure fun _ _ => .int _ i
    | float a => exact .pure fun _ _ => .float _ a
    | str a => exact .pure fun _ _ => .str _ a
    | leaf r => exact .pure fun _ _ => .leaf _ r
    | list items => exact .list ih items
    | tuple items => exact .tuple ih items
    | dict es => exact .dict ih nofun

section Rebuild

variable {value : Data NodeRef → RebuildM Value}

theorem supplies_entries {es : List (String × Data NodeRef)} {ps : List (String × Payload NodeRef)}
    (h : List.Forall₂ (fun e p => p.1 = e.1 ∧ ∀ x, Supplies x (p.2.rebuild value) fun z r =>
      e.2.Becomes z.table z.store false (.node r)) es ps) (x : Stock) :
    Supplies x (Payload.rebuildEntries value ps) fun z l => List.Forall₂
      (fun e w => w.1 = e.1 ∧ e.2.Becomes z.table z.store false (.node w.2)) es l := by
  induction h generalizing x with
  | nil => exact .pure fun _ _ => .nil
  | @cons e p _ _ hp _ ih =>
    obtain ⟨k, p⟩ := p
    obtain ⟨rfl, hp⟩ := hp
    rw [Payload.rebuildEntries]
    refine .bind (hp x) fun r y _ hr => .bind (ih y) fun l y' hy' hl => ?_
    exact .pure fun z hz => .cons ⟨rfl, hr z (hy'.trans hz)⟩ (hl z hz)

/-- A record becomes a node of the type that the table has under the id that it gives. -/
theorem supplies_rebuild (hvalue : ∀ d x, Supplies x (value d) fun z v =>
      d.Becomes z.table z.store false v) {n : ℕ} {d : Data NodeRef} {p : Payload NodeRef}
    (hp : Payload.readTo n d = .ok p) (x : Stock) :
    Supplies x (p.rebuild value) fun z r => d.Becomes z.table z.store false (.node r) := by
  induction n generalizing d p x with
  | zero => cases hp
  | succ n ih =>
    obtain ⟨_, id, typeId, metadata, constraints, children, rfl, hid, htypeId, ⟨⟩, hroles⟩ :=
      Payload.readTo_parts hp
    have hfields : ∀ role, List.Forall₂ (fun e (p : String × Payload NodeRef) => p.1 = e.1 ∧
        ∀ x, Supplies x (p.2.rebuild value) fun z r => e.2.Becomes z.table z.store false (.node r))
        (d.records role) _ := fun role => (hroles role).imp fun e p h => ⟨h.1, fun x => ih h.2 x⟩
    rw [Payload.rebuild]
    refine .bind (.typeNode x typeId) fun type x₁ h₁ htype => ?_
    refine .bind (hvalue _ x₁) fun v x₂ h₂ hv => .bind (hvalue _ x₂) fun d' x₃ h₃ hd => ?_
    refine .bind (supplies_entries (hfields .metadata) x₃) fun me x₄ h₄ hme => ?_
    refine .bind (supplies_entries (hfields .constraints) x₄) fun co x₅ h₅ hco => ?_
    refine .bind (supplies_entries (hfields .children) x₅) fun ch x₆ h₆ hch => ?_
    refine (Supplies.update (.content id type _)).mono fun z r hz hr => ?_
    obtain ⟨kind, hr⟩ := hr
    have h₅z := h₆.trans hz
    have h₃z := (h₄.trans h₅).trans h₅z
    have hlists : ∀ role, List.Forall₂
        (fun e w => w.1 = e.1 ∧ e.2.Becomes z.table z.store false (.node w.2)) (d.records role)
        (match role with
          | .metadata => me
          | .constraints => co
          | .children => ch) := fun role => by
      cases role with
      | metadata => exact hme z (h₅.trans h₅z)
      | constraints => exact hco z h₅z
      | children => exact hch z hz
    refine .of_node hid htypeId (by rw [hr]) ?_ ?_ ?_ (fun role => ?_) hlists
    · rw [hr]
      exact htype z ((h₂.trans h₃).trans h₃z)
    · rw [hr]
      exact hv z (h₃.trans h₃z)
    · rw [hr]
      exact hd z h₃z
    · rw [hr]
      cases role <;> rfl

/-- Reading the parts of a record and rebuilding it. -/
theorem supplies_record (hvalue : ∀ d x, Supplies x (value d) fun z v =>
      d.Becomes z.table z.store false v) (d : Data NodeRef) (x : Stock) :
    Supplies x (do let p ← Payload.orInvalid d; p.rebuild value) fun z r =>
      d.Becomes z.table z.store false (.node r) := by
  rw [Payload.orInvalid]
  cases hp : Payload.ofData d with
  | error issues => exact .throw (.invalid issues)
  | ok p => exact supplies_rebuild hvalue hp x

end Rebuild

/-- Data that is rebuilt becomes nodes where records stand for nodes, and what it was elsewhere. -/
theorem supplies_rebuildTo (n : ℕ) (d : Data NodeRef) (x : Stock) :
    Supplies x (d.rebuildTo n) fun z v => d.Becomes z.table z.store false v := by
  induction n generalizing d x with
  | zero => exact .throw _
  | succ n ih =>
    cases d with
    | null => exact .pure fun _ _ => .null _
    | bool b => exact .pure fun _ _ => .bool _ b
    | int i => exact .pure fun _ _ => .int _ i
    | float a => exact .pure fun _ _ => .float _ a
    | str a => exact .pure fun _ _ => .str _ a
    | leaf r => exact .pure fun _ _ => .leaf _ r
    | list items => exact .list ih items
    | tuple items => exact .tuple (supplies_keepTo n) items
    | dict es =>
      rw [Data.rebuildTo]
      split
      · rw [← bind_assoc]
        exact .bind (supplies_record ih _ x) fun r y _ hr => .pure hr
      · rename_i hplain
        exact .dict ih fun _ => by simpa using hplain

/-- A record is rebuilt as the node that it becomes. -/
theorem supplies_rebuildNode (d : Data NodeRef) (x : Stock) :
    Supplies x d.rebuildNode fun z r => d.Becomes z.table z.store false (.node r) :=
  supplies_record (supplies_rebuildTo _) d x

/-! ### Asking again -/

/-- Whether one table has come from another by use, on whatever stores: by asking for ids, and by
rebuilding. A rebuilding that fails has only asked for some ids. -/
inductive TypeTable.Used : TypeTable → TypeTable → Prop
  | refl (table : TypeTable) : Used table table
  | ask {table table' table'' : TypeTable} {id : String} {q : NodeRef} {s t : Store}
      (h : Used table table') (hask : RebuildM.typeNode id table' s = .ok (q, table'') t) :
    Used table table''
  | rebuild {table table' table'' : TypeTable} {d : Data NodeRef} {r : NodeRef} {s t : Store}
      (h : Used table table') (hrebuild : d.rebuildNode table' s = .ok (r, table'') t) :
    Used table table''

/-- A type stays the type of its id. -/
theorem TypeTable.Used.kept {table table' : TypeTable} (h : table.Used table') {id : String}
    {q : NodeRef} (hq : table.get? id = some q) : table'.get? id = some q := by
  induction h with
  | refl => exact hq
  | @ask table' table'' id' q' s t _ hask ih =>
    have hgrows := (Supplies.typeNode ⟨table', s⟩ id' _ (.refl _) _ _ _ hask).1
    exact hgrows.kept id q ih
  | @rebuild table' table'' d r s t _ hrebuild ih =>
    have hgrows := (supplies_rebuildNode d ⟨table', s⟩ _ (.refl _) _ _ _ hrebuild).1
    exact hgrows.kept id q ih

/-! ### Nodes that have been made -/

/-- Whether the nodes in data, if there are any, are nodes of a store. -/
inductive Data.Known (s : Store) : Data NodeRef → Prop
  | null : Known s .null
  | bool (b : Bool) : Known s (.bool b)
  | int (i : Int) : Known s (.int i)
  | float (x : Float) : Known s (.float x)
  | str (x : String) : Known s (.str x)
  | leaf {r : NodeRef} (h : s.Has (.node r)) : Known s (.leaf r)
  | list {items : List (Data NodeRef)} (h : ∀ d ∈ items, Known s d) : Known s (.list items)
  | tuple {items : List (Data NodeRef)} (h : ∀ d ∈ items, Known s d) : Known s (.tuple items)
  | dict {es : List (String × Data NodeRef)} (h : ∀ e ∈ es, Known s e.2) : Known s (.dict es)

namespace Data.Known

variable {d : Data NodeRef}

theorem get? (h : d.Known s) {k : String} {e : Data NodeRef} (he : d.get? k = some e) :
    e.Known s := by
  cases h with
  | dict h => exact h _ (Entries.mem_of_find_eq_some he)
  | _ => cases he

theorem anyField (h : d.Known s) (field : String) : (Payload.anyField field d).Known s := by
  rw [Payload.anyField]
  cases hfield : d.get? field with
  | none => exact .null
  | some e => exact h.get? hfield

theorem defaultField (h : d.Known s) : (Payload.defaultField d).Known s := by
  rw [Payload.defaultField]
  split
  · rename_i he
    exact h.get? he
  · exact h.anyField "default_value"

theorem records (h : d.Known s) (role : Role) : ∀ e ∈ d.records role, e.2.Known s := by
  rw [Data.records]
  split
  · rename_i hes
    cases h.get? hes
    assumption
  · nofun

end Data.Known

/-- What follows for the partners in two lists follows for the second list. -/
theorem forall_of_zip {P : α → Prop} {Q : β → Prop} {xs : List α} {ys : List β}
    (hlength : xs.length = ys.length) (h : ∀ x y, (x, y) ∈ xs.zip ys → P x → Q y)
    (hxs : ∀ x ∈ xs, P x) : ∀ y ∈ ys, Q y := by
  have hpairs : List.Forall₂ (fun x y => P x → Q y) xs ys :=
    List.forall₂_iff_zip.mpr ⟨hlength, fun hmem => h _ _ hmem⟩
  intro y hy
  obtain ⟨x, hx, himp⟩ := exists_partner hpairs.flip y hy
  exact himp (hxs x hx)

/-- Whether all nodes at or below a value are nodes of a first store, or of the type that a table
has under the id of their type. -/
def TypeTable.Covers (table : TypeTable) (s t : Store) (v : Value) : Prop :=
  ∀ u, Reaches t.parts v u → ∀ q, u = .node q →
    s.Has (.node q) ∨ table.get? (t.typeOf q).id = some (t.node q).type

namespace TypeTable.Covers

variable {table : TypeTable}

theorem of_has (hs : s.WellFormed) (hst : s.Extends t) (hv : s.Has v) : table.Covers s t v := by
  rintro _ hu q rfl
  exact .inl (hs.has_reached hv (hs.reaches_of_extends hst hv hu))

theorem of_parts (hv : ∀ q, v ≠ .node q) (h : ∀ p ∈ t.parts v, table.Covers s t p) :
    table.Covers s t v := Reaches.forall_iff.mpr ⟨fun q e => absurd e (hv q), h⟩

end TypeTable.Covers

/-- Every node below what data has become is one of those in the data, with what was below them, or
has the type that the table has under the id of its type. -/
theorem Data.Becomes.covers {table : TypeTable} {asIs : Bool} {d : Data NodeRef}
    (h : d.Becomes table t asIs v) (hs : s.WellFormed) (hst : s.Extends t) (htable : table.Sound t)
    (hd : d.Known s) : table.Covers s t v := by
  induction h with
  | leaf asIs r =>
    cases hd with
    | leaf hr => exact .of_has hs hst hr
  | list hlength h ih =>
    cases hd with
    | list hitems => exact .of_parts (by rintro _ ⟨⟩) (forall_of_zip hlength ih hitems)
  | tuple hlength h ih =>
    cases hd with
    | tuple hitems => exact .of_parts (by rintro _ ⟨⟩) (forall_of_zip hlength ih hitems)
  | @dict asIs es l r hplain hdict hkeys h ih =>
    cases hd with
    | dict hentries =>
      have hlength : (es.map Prod.snd).length = (l.map Prod.snd).length := by
        simpa using (congrArg List.length hkeys).symm
      have hall := forall_of_zip hlength ih (List.forall_mem_map.mpr hentries)
      refine .of_parts (by rintro _ ⟨⟩) fun p hp => hall p ?_
      rw [parts, hdict] at hp
      exact Entries.mem_values_ofList hp
  | @node d q id typeId maps hid htypeId hnode htype hvalue hdefault hmaps hkeys h ihvalue
      ihdefault ih =>
    refine Reaches.forall_iff.mpr ⟨?_, fun p hp => ?_⟩
    · rintro _ ⟨⟩
      refine .inr ?_
      rwa [typeOf, (htable typeId _ htype).2]
    · rcases Node.mem_parts hp with rfl | rfl | ⟨role, r, hr, rfl⟩
      · exact ihvalue (hd.anyField "value")
      · exact ihdefault hd.defaultField
      · have hlength : ((d.records role).map Prod.snd).length =
            ((maps role).map Prod.snd).length := by
          simpa using (congrArg List.length (hkeys role)).symm
        rw [hmaps role] at hr
        exact forall_of_zip hlength (ih role) (List.forall_mem_map.mpr (hd.records role)) r
          (Entries.mem_values_ofList hr)
  | _ => exact .of_parts (by rintro _ ⟨⟩) (by simp [parts])

/-- What is known of the types of a node that has been rebuilt from a record, with a table that
started with some given types. -/
structure Data.Typed (d : Data NodeRef) (s : Store) (types : List NodeRef) (table : TypeTable)
    (t : Store) (r : NodeRef) : Prop where
  /-- Each record has become a node of the type that the table has under the id that it gives. -/
  becomes : d.Becomes table t false (.node r)
  /-- The types in the table are there under their own ids. -/
  sound : table.Sound t
  /-- New nodes share their type just if the ids of their types are equal. -/
  shared : ∀ q q', Reaches t.parts (.node r) (.node q) → Reaches t.parts (.node r) (.node q') →
    ¬ s.Has (.node q) → ¬ s.Has (.node q') →
      ((t.node q).type = (t.node q').type ↔ (t.typeOf q).id = (t.typeOf q').id)
  /-- Every id is answered with the type it stands for, the same as in what has been rebuilt. -/
  answered : ∀ id, ∃ q, ∃ y : Stock, RebuildM.typeNode id table t = .ok (q, y.table) y.store ∧
    s.ResolvesTo types y.store id q ∧ ∀ q', table.get? id = some q' → q' = q
  /-- An id that is asked for again is answered with the same type. -/
  again : ∀ table₁, table.Used table₁ → ∀ id q table₂ u u',
    RebuildM.typeNode id table₁ u = .ok (q, table₂) u' →
      ∀ table₃, table₂.Used table₃ → ∀ w, RebuildM.typeNode id table₃ w = .ok (q, table₃) w

/-- Whatever is rebuilt with some given types, accepted as it is: each node has a type of the id
that its record gives, one and the same for the same id: the last one given of that id, else the
built-in one, else one placeholder. Asking for the id later gives that type again. -/
theorem rebuildNode_types (hs : s.WellFormed) {types : List NodeRef}
    (htypes : ∀ q ∈ types, s.Has (.node q)) {d : Data NodeRef} (hd : d.Known s)
    {table : TypeTable} (h : d.rebuildNode (.withTypes s types) s = .ok (r, table) t) :
    d.Typed s types table t r := by
  obtain ⟨hgrows, hbecomes⟩ := supplies_rebuildNode d ⟨.withTypes s types, s⟩ _ (.refl _) _ _ _ h
  have hbecomes := hbecomes _ (.refl _)
  have hsound := hgrows.sound (.withTypes hs htypes)
  have hcovers := hbecomes.covers hs hgrows.store hsound hd
  have htyped : ∀ q, Reaches t.parts (.node r) (.node q) → ¬ s.Has (.node q) →
      table.get? (t.typeOf q).id = some (t.node q).type := fun q hq hnew =>
    (hcovers _ hq q rfl).resolve_left hnew
  refine ⟨hbecomes, hsound, fun q q' hq hq' hnew hnew' => ?_, fun id => ?_, ?_⟩
  · constructor
    · exact fun e => by rw [typeOf, typeOf, e]
    · intro e
      have htype := htyped q hq hnew
      rw [e, htyped q' hq' hnew'] at htype
      exact (Option.some.inj htype).symm
  · obtain ⟨q, y, hask, hy, hq⟩ := RebuildM.exists_typeNode id ⟨table, t⟩
    refine ⟨q, y, hask, (hgrows.trans hy).resolves hq, fun q' hq' => ?_⟩
    exact Option.some.inj ((hy.kept id q' hq').symm.trans hq)
  · intro table₁ _ id q table₂ u u' hask table₃ hlater w
    have hq := (Supplies.typeNode ⟨table₁, u⟩ id _ (.refl _) _ _ _ hask).2 _ (.refl _)
    exact RebuildM.typeNode_of_get? (hlater.kept hq) w

/-- The built-in types, and a type that has the id of one of them. -/
def Store.fields : Store := (initial.allocNode (Builtin.node "Property" Builtin.type .type)).2

theorem Store.fields_wellFormed : fields.WellFormed :=
  initial_wellFormed.allocNode (by decide) rfl (by decide)

/-- A record of a given type, with records of an unknown type in its value and in its children. -/
def Data.survey : Data NodeRef :=
  .dict [("id", .str "form"), ("type", .dict [("id", .str "Property")]),
    ("value", .list [.dict [("id", .str "x"), ("type", .dict [("id", .str "Widget")])]]),
    ("children", .dict [("a", .dict [("id", .str "y"), ("type", .dict [("id", .str "Widget")])])])]

theorem Data.survey_known : survey.Known s := by
  have htype : ∀ id, (Data.dict [("id", (.str id : Data NodeRef))]).Known s := fun id =>
    .dict (by simpa using .str id)
  have hwidget : ∀ id, (Data.dict [("id", (.str id : Data NodeRef)),
      ("type", .dict [("id", .str "Widget")])]).Known s := fun id =>
    .dict (by simpa using ⟨.str id, htype _⟩)
  refine .dict ?_
  simpa using ⟨.str "form", htype _, .list (by simpa using hwidget "x"),
    .dict (by simpa using hwidget "y")⟩

theorem survey_types : ∃ r table t,
    Data.survey.rebuildNode (.withTypes .fields [⟨8⟩]) .fields = .ok (r, table) t ∧
      Data.survey.Typed .fields [⟨8⟩] table t r := by
  have hrun : ∃ r table t,
      Data.survey.rebuildNode (.withTypes .fields [⟨8⟩]) .fields = .ok (r, table) t :=
    ⟨_, _, _, rfl⟩
  obtain ⟨r, table, t, hrun⟩ := hrun
  exact ⟨r, table, t, hrun,
    rebuildNode_types Store.fields_wellFormed (by decide) Data.survey_known hrun⟩

end LiveTree
