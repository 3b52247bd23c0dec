import LiveTree.Form.Decode
import LiveTree.Proofs.Form.Equality
import LiveTree.Proofs.Form.Payload
import LiveTree.Proofs.Keeping
import LiveTree.Proofs.Store.Sealed

/-! Rebuilding from the form. The types in the table stand under their own ids, and rebuilding adds
cells and types only, so what it makes of a form looks like what the form is a form of. -/

namespace LiveTree

open Store

variable {α β γ ν : Type} {s t : Store} {v : Value}

/-! ### Tables of types -/

/-- Whether the types of a table are nodes of a store under their own ids. -/
def TypeTable.Sound (table : TypeTable) (s : Store) : Prop :=
  ∀ id r, table.get? id = some r → s.Has (.node r) ∧ (s.node r).id = id

namespace TypeTable.Sound

variable {table : TypeTable}

theorem extend (h : table.Sound s) (hst : s.Extends t) : table.Sound t := fun id r hr =>
  have ⟨hhas, hid⟩ := h id r hr
  ⟨hst.has hhas, by rw [hst.node hhas, hid]⟩

theorem insert (h : table.Sound s) {r : NodeRef} (hr : s.Has (.node r)) :
    Sound (table.insert (s.node r).id r) s := by
  intro id q hq
  by_cases e : id = (s.node r).id
  · subst e
    rw [Entries.get?_insert_self] at hq
    cases hq
    exact ⟨hr, rfl⟩
  · rw [Entries.get?_insert_of_ne _ _ e] at hq
    exact h id q hq

theorem insertAll (h : table.Sound s) {l : List (String × NodeRef)}
    (hl : ∀ p ∈ l, s.Has (.node p.2) ∧ (s.node p.2).id = p.1) : Sound (table.insertAll l) s := by
  induction l generalizing table with
  | nil => exact h
  | cons p rest ih =>
    obtain ⟨⟨hp, hid⟩, hrest⟩ := List.forall_mem_cons.mp hl
    have hinsert := h.insert hp
    rw [hid] at hinsert
    exact ih hinsert hrest

/-- The built-in types and any others are a sound table. -/
theorem withTypes (hs : s.WellFormed) {types : List NodeRef} (h : ∀ r ∈ types, s.Has (.node r)) :
    (TypeTable.withTypes s types).Sound s := by
  have hempty : Sound Entries.empty s := fun id r hr => nomatch hr
  refine (hempty.insertAll hs.builtin).insertAll fun p hp => ?_
  obtain ⟨r, hr, rfl⟩ := List.mem_map.mp hp
  exact ⟨h r hr, rfl⟩

end TypeTable.Sound

/-! ### Rebuilding -/

/-- Whether an operation succeeds on every store that extends a first one with any sound table, adds
cells and sound types only, and gives what a relation asks for from then on. -/
def Rebuilds (s : Store) (m : RebuildM α) (R : Store → α → Prop) : Prop :=
  ∀ s₁ (table : TypeTable), s.Extends s₁ → table.Sound s₁ →
    ∃ a table' s₂, m table s₁ = .ok (a, table') s₂ ∧ s₁.Extends s₂ ∧ TypeTable.Sound table' s₂ ∧
      ∀ t, s₂.Extends t → R t a

namespace Rebuilds

variable {R : Store → α → Prop} {S : Store → β → Prop}

theorem extend {m : RebuildM α} (h : Rebuilds s m R) (hst : s.Extends t) : Rebuilds t m R :=
  fun s₁ table h₁ => h s₁ table (hst.trans h₁)

theorem pure {a : α} (h : ∀ t, s.Extends t → R t a) : Rebuilds s (Pure.pure a) R :=
  fun s₁ table h₁ htable => ⟨a, table, s₁, rfl, .refl, htable, fun t ht => h t (h₁.trans ht)⟩

theorem bind {m : RebuildM α} {k : α → RebuildM β} (hm : Rebuilds s m R)
    (hk : ∀ a s₁, s.Extends s₁ → (∀ t, s₁.Extends t → R t a) → Rebuilds s₁ (k a) S) :
    Rebuilds s (m >>= k) S := by
  intro s₁ table h₁ htable
  obtain ⟨a, table', s₂, hma, h₁₂, htable', ha⟩ := hm s₁ table h₁ htable
  obtain ⟨b, table'', s₃, hkb, h₂₃, htable'', hb⟩ :=
    hk a s₂ (h₁.trans h₁₂) ha s₂ table' .refl htable'
  exact ⟨b, table'', s₃, (bind_of_ok hma _).trans hkb, h₁₂.trans h₂₃, htable'', hb⟩

theorem mono {m : RebuildM α} {R' : Store → α → Prop} (h : Rebuilds s m R)
    (hR : ∀ t a, s.Extends t → R t a → R' t a) : Rebuilds s m R' := fun s₁ table h₁ htable =>
  have ⟨a, table', s₂, hma, h₁₂, htable', ha⟩ := h s₁ table h₁ htable
  ⟨a, table', s₂, hma, h₁₂, htable', fun t ht => hR t a ((h₁.trans h₁₂).trans ht) (ha t ht)⟩

theorem mapM {f : α → RebuildM β} {T : Store → γ → β → Prop} {xs : List γ} {l : List α}
    (h : List.Forall₂ (fun x a => Rebuilds s (f a) fun t b => T t x b) xs l) :
    Rebuilds s (l.mapM f) fun t bs => List.Forall₂ (T t) xs bs := by
  induction h with
  | nil => exact .pure fun _ _ => .nil
  | cons h _ ih =>
    rw [List.mapM_cons]
    refine .bind h fun b s₁ h₁ hb => .bind (ih.extend h₁) fun bs s₂ h₂ hbs => ?_
    exact .pure fun t ht => .cons (hb t (h₂.trans ht)) (hbs t ht)

/-- What adds one cell to the store. -/
theorem update {f : Store → α × Store} (hf : ∀ s₁ : Store, s₁.Extends (f s₁).2)
    (hR : ∀ s₁ t : Store, s.Extends s₁ → (f s₁).2.Extends t → R t (f s₁).1) :
    Rebuilds s (StoreM.update f : RebuildM α) R := fun s₁ table h₁ htable =>
  ⟨(f s₁).1, table, (f s₁).2, rfl, hf s₁, htable.extend (hf s₁), fun t ht => hR s₁ t h₁ ht⟩

theorem newList (l : List Value) : Rebuilds s (StoreM.update (·.newList l) : RebuildM Value)
    fun t v => ∃ r, v = .list r ∧ t.Has v ∧ t.list r = l :=
  .update (fun _ => extends_allocList l) fun s₁ t _ ht => by
    have hhas : (s₁.newList l).2.Has (s₁.newList l).1 := by simp [Has, Store.newList, allocList]
    exact ⟨_, rfl, ht.has hhas, Eq.trans (ht.agree hhas) (list_allocList (s := s₁) l)⟩

theorem newDict (d : Entries Value) : Rebuilds s (StoreM.update (·.newDict d) : RebuildM Value)
    fun t v => ∃ r, v = .dict r ∧ t.Has v ∧ t.dict r = d :=
  .update (fun _ => extends_allocDict d) fun s₁ t _ ht => by
    have hhas : (s₁.newDict d).2.Has (s₁.newDict d).1 := by simp [Has, Store.newDict, allocDict]
    exact ⟨_, rfl, ht.has hhas, Eq.trans (ht.agree hhas) (dict_allocDict (s := s₁) d)⟩

/-- A new node has the kind that goes with the id of its type. -/
theorem node {id typeId : String} {type : NodeRef} (c : Content)
    (htype : ∀ t, s.Extends t → (t.node type).id = typeId) :
    Rebuilds s (Make.node id type c : RebuildM NodeRef) fun t r => t.Has (.node r) ∧ t.node r =
      ⟨id, type, .ofTypeId typeId, c.value, c.default, c.metadata, c.constraints, c.children⟩ :=
  .update (fun _ => extends_allocNode _) fun s₁ t h₁ ht => by
    have hhas : ∀ n, (s₁.allocNode n).2.Has (.node (s₁.allocNode n).1) := fun n => by
      simp [Has, allocNode]
    refine ⟨ht.has (hhas _), ?_⟩
    rw [← htype s₁ h₁]
    exact Eq.trans (ht.agree (hhas _)) (node_allocNode_self s₁ _)

theorem typeNode (id : String) :
    Rebuilds s (RebuildM.typeNode id) fun t r => t.Has (.node r) ∧ (t.node r).id = id := by
  intro s₁ table h₁ htable
  cases hid : table.get? id with
  | some r =>
    refine ⟨r, table, s₁, ?_, .refl, htable, fun t ht => htable.extend ht id r hid⟩
    rw [RebuildM.typeNode, RebuildM.get_bind, hid]
    rfl
  | none =>
    let n : Node := ⟨id, Builtin.type, .ofTypeId (s₁.node Builtin.type).id, .none, .none, ∅, ∅, ∅⟩
    have hext : s₁.Extends (s₁.allocNode n).2 := extends_allocNode n
    have hhas : (s₁.allocNode n).2.Has (.node (s₁.allocNode n).1) := by simp [Has, allocNode]
    have hnode : ((s₁.allocNode n).2.node (s₁.allocNode n).1).id = id := by
      rw [node_allocNode_self]
    refine ⟨(s₁.allocNode n).1, table.insert id (s₁.allocNode n).1, (s₁.allocNode n).2, ?_, hext,
      ?_, fun t ht => ⟨ht.has hhas, by rw [ht.node hhas, hnode]⟩⟩
    · rw [RebuildM.typeNode, RebuildM.get_bind, hid]
      rfl
    · have hinsert := (htable.extend hext).insert hhas
      rwa [hnode] at hinsert

end Rebuilds

/-! ### Values -/

/-- Whether a value is a dictionary that looks like a serialized node: it has a text as `id`, and as
`type` a node or a dictionary that has a text as `id`. -/
def Store.LooksLikeNode (s : Store) (v : Value) : Prop :=
  ∃ r, v = .dict r ∧ (∃ t, (s.dict r).get? "id" = some (.str t)) ∧
    ((∃ q, (s.dict r).get? "type" = some (.node q)) ∨
      ∃ q t, (s.dict r).get? "type" = some (.dict q) ∧ (s.dict q).get? "id" = some (.str t))

/-- An entry of the form of a dictionary is the form of the entry. -/
theorem FormOf.exists_entry {r : DictRef} {es : List (String × Data ν)}
    (h : FormOf s (.dict r) (.dict es)) {k : String} {d : Data ν}
    (hd : Entries.find k es = some d) :
    ∃ u, (s.dict r).get? k = some u ∧ FormOf s u d := by
  cases h with
  | dict hkeys h =>
    have hpairs := (forall₂_pairs.mpr ⟨hkeys, h⟩).flip
    obtain ⟨p, hp, hname, hform⟩ := exists_partner hpairs (k, d) (Entries.mem_of_find_eq_some hd)
    have hname : k = p.1 := hname
    exact ⟨p.2, Entries.get?_eq_some_iff.mpr (hname ▸ hp), hform⟩

theorem FormOf.eq_str {t : String} (h : FormOf s v (.str t : Data ν)) : v = .str t := by
  cases h
  rfl

/-- The form of a dictionary stands for a node only if the dictionary looks like one. -/
theorem FormOf.looksLikeNode {r : DictRef} {es : List (String × Data ν)}
    (h : FormOf s (.dict r) (.dict es)) (hd : (Data.dict es).standsForNode = true) :
    s.LooksLikeNode (.dict r) := by
  obtain ⟨⟨t, hid⟩, t', htype⟩ := Data.standsForNode_iff.mp hd
  obtain ⟨d, hd, hdid⟩ := Option.bind_eq_some_iff.mp htype
  obtain ⟨u, hu, huform⟩ := h.exists_entry hid
  obtain ⟨w, hw, hwform⟩ := h.exists_entry hd
  rw [huform.eq_str] at hu
  refine ⟨r, rfl, ⟨t, hu⟩, ?_⟩
  cases hwform with
  | node => exact .inl ⟨_, hw⟩
  | @dict q es' hkeys hes =>
    obtain ⟨x, hx, hxform⟩ := (FormOf.dict hkeys hes).exists_entry hdid
    rw [hxform.eq_str] at hx
    exact .inr ⟨q, t', hw, hx⟩
  | _ => cases hdid

theorem FormOf.standsForNode {r : NodeRef} {d : Data ν} (h : FormOf s (.node r) d) :
    d.standsForNode = true := by
  cases h with
  | sequence hv => cases hv
  | node => rfl

/-- Whether a value can be serialized and read back: nothing comes back to itself, and nothing in it
is a dictionary that looks like a serialized node. -/
structure Store.Recoverable (s : Store) (v : Value) : Prop where
  has : s.Has v
  ends : ∃ n, EndsWithin s.parts n v
  plain : ∀ u, Reaches s.parts v u → ¬ s.LooksLikeNode u

theorem Store.Recoverable.below (h : s.Recoverable v) (hs : s.WellFormed) {p : Value}
    (hp : p ∈ s.parts v) : s.Recoverable p where
  has := hs.has_parts h.has p hp
  ends := by
    obtain ⟨n, hn⟩ := h.ends
    obtain ⟨m, rfl⟩ := hn.pos
    exact ⟨m, hn p hp⟩
  plain u hu := h.plain u (hu.of_below hp)

section Rebuild

variable {value : Data NodeRef → RebuildM Value} {bound : ℕ}

theorem rebuilds_entries {P : NodeRef → Payload NodeRef → Prop}
    (h : ∀ q p, P q p → Rebuilds s (p.rebuild value) fun t r => Alike s t (.node q) (.node r))
    {qs : List (String × NodeRef)} {ps : List (String × Payload NodeRef)}
    (hps : List.Forall₂ (fun q p => p.1 = q.1 ∧ P q.2 p.2) qs ps) :
    Rebuilds s (Payload.rebuildEntries value ps) fun t l =>
      List.Forall₂ (fun q p => p.1 = q.1 ∧ Alike s t (.node q.2) (.node p.2)) qs l := by
  induction hps with
  | nil => exact .pure fun _ _ => .nil
  | @cons q p _ _ hqp _ ih =>
    obtain ⟨k, p⟩ := p
    obtain ⟨rfl, hp⟩ := hqp
    rw [Payload.rebuildEntries]
    refine .bind (h q.2 p hp) fun r s₁ h₁ hr => .bind (ih.extend h₁) fun l s₂ h₂ hl => ?_
    exact .pure fun t ht => .cons ⟨rfl, hr t (h₂.trans ht)⟩ (hl t ht)

/-- The nodes of a map are rebuilt under their names, if each of them can be. -/
theorem rebuilds_map {q : NodeRef} {role : Role} {ps : List (String × Payload NodeRef)}
    (h : ∀ x ∈ ((s.node q).entries role).values, ∀ p, PayloadOf s bound x p →
      Rebuilds s (p.rebuild value) fun t r => Alike s t (.node x) (.node r))
    (hkeys : ps.map Prod.fst = ((s.node q).entries role).keys)
    (hps : List.Forall₂ (PayloadOf s bound) ((s.node q).entries role).values (ps.map Prod.snd)) :
    Rebuilds s (Payload.rebuildEntries value ps) fun t l =>
      List.Forall₂ (fun x p => p.1 = x.1 ∧ Alike s t (.node x.2) (.node p.2))
        ((s.node q).entries role).toList l := by
  refine rebuilds_entries (P := fun x p => x ∈ ((s.node q).entries role).values ∧
    PayloadOf s bound x p) (fun x p hx => h x hx.1 p hx.2) ?_
  exact (forall₂_pairs (R := fun x p => x ∈ ((s.node q).entries role).values ∧
    PayloadOf s bound x p)).mpr ⟨hkeys, forall₂_imp_mem hps fun x hx p _ hxp => ⟨hx, hxp⟩⟩

/-- Rebuilding a node from the forms of its parts gives a node that looks the same, if that holds of
the values in it. -/
theorem rebuilds_payload (hs : s.WellFormed)
    (hvalue : ∀ v d, FormOf s v d → s.Recoverable v → d.depth < bound →
      Rebuilds s (value d) fun t w => Alike s t v w)
    {n : ℕ} {q : NodeRef} {p : Payload NodeRef} (hend : EndsWithin s.parts n (.node q))
    (hq : s.Recoverable (.node q)) (hp : PayloadOf s bound q p) :
    Rebuilds s (p.rebuild value) fun t r => Alike s t (.node q) (.node r) := by
  induction n generalizing q p with
  | zero => exact hend.elim
  | succ n ih =>
    cases hp with
    | @mk _ v d maps hv hd hvdepth hddepth hkeys h =>
      have hmaps : ∀ role, Rebuilds s (Payload.rebuildEntries value (maps role)) fun t l =>
          List.Forall₂ (fun x p => p.1 = x.1 ∧ Alike s t (.node x.2) (.node p.2))
            ((s.node q).entries role).toList l := fun role =>
        rebuilds_map (fun x hx p hxp =>
          have hpart := (s.node q).entry_mem_parts role hx
          ih (hend _ hpart) (hq.below hs hpart) hxp) (hkeys role) (h role)
      -- each part is rebuilt on the store that the parts before it have left
      rw [Payload.rebuild]
      refine .bind (.typeNode _) fun type s₁ h₁ htype => ?_
      refine .bind ((hvalue _ v hv (hq.below hs (s.node q).value_mem_parts) hvdepth).extend h₁)
        fun v' s₂ h₂ hv' => ?_
      refine .bind ((hvalue _ d hd (hq.below hs (s.node q).default_mem_parts) hddepth).extend
        (h₁.trans h₂)) fun d' s₃ h₃ hd' => ?_
      have h₁₃ := (h₁.trans h₂).trans h₃
      refine .bind ((hmaps .metadata).extend h₁₃) fun metadata s₄ h₄ hme => ?_
      have h₁₄ := h₁₃.trans h₄
      refine .bind ((hmaps .constraints).extend h₁₄) fun constraints s₅ h₅ hco => ?_
      have h₁₅ := h₁₄.trans h₅
      refine .bind ((hmaps .children).extend h₁₅) fun children s₆ h₆ hch => ?_
      have h₂₆ := ((h₂.trans h₃).trans h₄).trans (h₅.trans h₆)
      have htypeId : ∀ t, s₆.Extends t → (t.node type).id = (s.typeOf q).id :=
        fun t ht => (htype t (h₂₆.trans ht)).2
      refine (Rebuilds.node _ htypeId).mono fun t r ht hr => ?_
      have h₃t := ((h₃.trans h₄).trans (h₅.trans h₆)).trans ht
      have hkeep : ∀ role, ((t.node r).entries role).keys = ((s.node q).entries role).keys ∧
          List.Forall₂ (fun x y => Alike s t (.node x) (.node y))
            ((s.node q).entries role).values ((t.node r).entries role).values := by
        intro role
        rw [hr.2]
        cases role with
        | metadata => exact Entries.partners_ofList (hme t ((h₅.trans h₆).trans ht))
        | constraints => exact Entries.partners_ofList (hco t (h₆.trans ht))
        | children => exact Entries.partners_ofList (hch t ht)
      refine .node (by rw [hr.2]) ?_ ?_ ?_ ?_ (fun role => (hkeep role).1)
        fun role => (hkeep role).2
      · rw [typeOf, hr.2]
        exact htypeId t ht
      · rw [hr.2]
        exact (hs.kind_eq q hq.has).symm
      · rw [hr.2]
        exact hv' t h₃t
      · rw [hr.2]
        exact hd' t (((h₄.trans h₅).trans h₆).trans ht)

end Rebuild

/-- The form of a node has the shape of one. -/
theorem rebuilds_orInvalid {r : NodeRef} {d : Data NodeRef} {bound : ℕ} (h : FormOf s (.node r) d)
    (hd : d.depth ≤ bound) :
    Rebuilds s (Payload.orInvalid d) fun _ p => PayloadOf s bound r p := by
  obtain ⟨p, hread, hp⟩ := exists_payload h (Nat.lt_succ_self _) hd
  rw [Payload.orInvalid, Payload.ofData, hread]
  exact .pure fun _ _ => hp

/-- Rebuilding the form of a value gives a value that looks the same. -/
theorem rebuilds_form (hs : s.WellFormed) {n : ℕ} {d : Data NodeRef} (h : FormOf s v d)
    (hv : s.Recoverable v) (hn : d.depth < n) :
    Rebuilds s (d.rebuildTo n) fun t w => Alike s t v w := by
  induction n generalizing v d with
  | zero => omega
  | succ n ih =>
    cases h with
    | none => exact .pure fun _ _ => .scalar rfl
    | bool => exact .pure fun _ _ => .scalar rfl
    | int => exact .pure fun _ _ => .scalar rfl
    | float => exact .pure fun _ _ => .scalar rfl
    | str => exact .pure fun _ _ => .scalar rfl
    | @sequence _ xs ds hxs h =>
      have hparts := parts_of_sequence hxs
      rw [Data.rebuildTo]
      have hitems : Rebuilds s (ds.mapM (Data.rebuildTo n)) fun t vs =>
          List.Forall₂ (Alike s t) xs vs := by
        refine .mapM (forall₂_imp_mem h fun x hx d hd hxd => ?_)
        have hdepth := Data.depth_lt_list hd
        exact ih hxd (hv.below hs (hparts ▸ hx)) (by omega)
      refine hitems.bind fun vs s₁ h₁ hvs => (Rebuilds.newList vs).mono fun t w ht hw => ?_
      obtain ⟨r, rfl, -, hr⟩ := hw
      exact .sequence hxs (congrArg some hr) (hvs t ht)
    | @dict r es hkeys h =>
      -- the form of a dictionary is taken for a node only if the dictionary looks like one
      have hform : FormOf s (.dict r) (.dict es) := .dict hkeys h
      have hplain : ¬ (Data.dict es).standsForNode = true := fun hd =>
        hv.plain _ (.refl _) (hform.looksLikeNode hd)
      rw [Data.rebuildTo, if_neg hplain]
      have hentries : Rebuilds s (es.mapM fun p => do return (p.1, ← p.2.rebuildTo n)) fun t vs =>
          List.Forall₂ (fun x w => w.1 = x.1 ∧ Alike s t x.2 w.2) (s.dict r).toList vs := by
        refine .mapM (forall₂_imp_mem (forall₂_pairs.mpr ⟨hkeys, h⟩) fun x hx e he hxe => ?_)
        have hdepth := Data.depth_lt_dict he
        have hbelow := hv.below hs (p := x.2) (List.mem_map_of_mem hx)
        refine .bind (ih hxe.2 hbelow (by omega)) fun w s₁ h₁ hw => ?_
        exact .pure fun t ht => ⟨hxe.1, hw t ht⟩
      refine hentries.bind fun vs s₁ h₁ hvs => (Rebuilds.newDict _).mono fun t w ht hw => ?_
      obtain ⟨q, rfl, -, hq⟩ := hw
      obtain ⟨hkeys', hvalues⟩ := Entries.partners_ofList (hvs t ht)
      rw [← hq] at hkeys' hvalues
      exact .dict hkeys' hvalues
    | @node r value default maps hvalue hdefault hkeys h =>
      have hform : FormOf s (.node r) _ := .node hvalue hdefault hkeys h
      obtain ⟨m, hend⟩ := hv.ends
      rw [Data.rebuildTo, if_pos hform.standsForNode]
      refine .bind (rebuilds_orInvalid hform (Nat.le_of_lt_succ hn)) fun p s₁ h₁ hp => ?_
      have hpayload := hp s₁ .refl
      refine .bind ((rebuilds_payload hs (fun v d hvd hv hd => ih hvd hv hd) hend hv
        hpayload).extend h₁) fun q s₂ h₂ hq => ?_
      exact .pure fun t ht => hq t ht

/-! ### The round trip -/

/-- The form of a node is rebuilt, with any types known, as a node that looks the same. -/
theorem deserialize_form (hs : s.WellFormed) {r : NodeRef} (hr : s.Recoverable (.node r))
    (hnan : ∀ u, Reaches s.parts (.node r) u → ¬ u.IsNaN) {d : Data NodeRef}
    (hd : FormOf s (.node r) d) {types : TypeTable} (htypes : types.Sound s) :
    ∃ r' t, deserialize d types s = .ok r' t ∧ s.Extends t ∧ t.sameNodes r r' = .ok true ∧
      Alike t t (.node r) (.node r') ∧ (t.nodeForm r' : Except Fault (Data NodeRef)) = .ok d := by
  obtain ⟨n, hn⟩ := hr.ends
  have hend := hs.endsWithin hr.has hn.acyclic
  have hnode : Rebuilds s d.rebuildNode fun t r' => Alike s t (.node r) (.node r') := by
    refine .bind (rebuilds_orInvalid hd (Nat.le_succ _)) fun p s₁ h₁ hp => ?_
    refine (rebuilds_payload hs (fun v e hve hv he => ?_) hend hr (hp s₁ .refl)).extend h₁
    exact rebuilds_form hs hve hv he
  obtain ⟨r', table, t, hrun, hst, -, halike⟩ := hnode s _ .refl htypes
  have halike := halike t .refl
  have halike' : Alike t t (.node r) (.node r') := halike.of_extends hs hst hr.has hend
  have hbound : s.depthBound ≤ t.depthBound := Nat.succ_le_succ hst.outlives.size_le
  refine ⟨r', t, bind_of_ok hrun _, hst, ?_, halike', ?_⟩
  · exact sameTo_of_alike halike' ((hs.endsWithin_of_extends hst hr.has hend).mono hbound)
      fun u hu => hnan u (hs.reaches_of_extends hst hr.has hu)
  · exact (halike.formTo_eq _).trans (hd.formTo_eq (hend.mono hbound))

/-- A node without cycles, in which no number is not a number and no dictionary looks like a
serialized node, can be serialized, and read back with any types known. The result is structurally
equal to the node, place by place of the same kinds, and serializes to the same form. -/
theorem deserialize_nodeForm (hs : s.WellFormed) {r : NodeRef} (hr : s.Has (.node r))
    (ha : Acyclic s.parts (.node r)) (hnan : ∀ u, Reaches s.parts (.node r) u → ¬ u.IsNaN)
    (hplain : ∀ u, Reaches s.parts (.node r) u → ¬ s.LooksLikeNode u) (types : List NodeRef)
    (htypes : ∀ q ∈ types, s.Has (.node q)) :
    ∃ d r' t, s.nodeForm r = .ok d ∧ deserialize d (.withTypes s types) s = .ok r' t ∧
      t.sameNodes r r' = .ok true ∧ Alike t t (.node r) (.node r') ∧
      (t.nodeForm r' : Except Fault (Data NodeRef)) = .ok d := by
  obtain ⟨d, hd, hform⟩ := hs.form_exists (ν := NodeRef) hr ha
  have hrec : s.Recoverable (.node r) := ⟨hr, ⟨_, hs.endsWithin hr ha⟩, hplain⟩
  obtain ⟨r', t, hrun, -, hsame, halike, hform'⟩ :=
    deserialize_form hs hrec hnan hd (TypeTable.Sound.withTypes hs htypes)
  exact ⟨d, r', t, hform, hrun, hsame, halike, hform'⟩

/-- A node with a child of a type of its own and a list that holds a literal. -/
def Store.nested : Store :=
  let s := (initial.allocNode (Builtin.node "Port" Builtin.type .type)).2
  let s := (s.allocNode { Builtin.node "lit" Builtin.lit .lit with value := .int 1 }).2
  let s := (s.allocList [.none, .node ⟨9⟩, .str "id"]).2
  let s := (s.allocNode { Builtin.node "port" ⟨8⟩ .plain with default := .bool true }).2
  (s.allocNode { Builtin.node "root" Builtin.property .plain with
    value := .list ⟨0⟩, children := .ofList [("port", ⟨10⟩)] }).2

theorem Store.nested_wellFormed : nested.WellFormed :=
  initial_wellFormed.allocNode (by decide) rfl (by decide)
    |>.allocNode (by decide) rfl (by decide)
    |>.allocList (by decide)
    |>.allocNode (by decide) rfl (by decide)
    |>.allocNode (by decide) rfl (by decide)

/-- In a store without floating-point numbers in its cells, no number is not a number. -/
theorem Store.not_isNaN (hs : s.WellFormed)
    (hnodes : ∀ i < s.nodes.size, ∀ p ∈ s.parts (.node ⟨i⟩), p.className ≠ "float")
    (hlists : ∀ i < s.lists.size, ∀ p ∈ s.parts (.list ⟨i⟩), p.className ≠ "float")
    (htuples : ∀ i < s.tuples.size, ∀ p ∈ s.parts (.tuple ⟨i⟩), p.className ≠ "float")
    (hdicts : ∀ i < s.dicts.size, ∀ p ∈ s.parts (.dict ⟨i⟩), p.className ≠ "float") {r : NodeRef}
    (hr : s.Has (.node r)) (u : Value) (hu : Reaches s.parts (.node r) u) : ¬ u.IsNaN := by
  have hparts : ∀ v, s.Has v → ∀ p ∈ s.parts v, p.className ≠ "float" := by
    intro v hv
    cases v with
    | node r => exact hnodes r.index hv
    | list r => exact hlists r.index hv
    | tuple r => exact htuples r.index hv
    | dict r => exact hdicts r.index hv
    | _ => exact fun _ hp => nomatch hp
  have hreached : s.Has u ∧ u.className ≠ "float" :=
    hu.closed (P := fun u => s.Has u ∧ u.className ≠ "float")
      ⟨hr, by simp [Value.className]⟩ fun x _ hx y hy => ⟨hs.has_parts hx.1 y hy, hparts x hx.1 y hy⟩
  rintro ⟨x, rfl, -⟩
  exact hreached.2 rfl

theorem nested_comes_back : ∃ d r' t, nested.nodeForm ⟨11⟩ = .ok d ∧
    deserialize d (.withTypes nested [⟨8⟩]) nested = .ok r' t ∧
    t.sameNodes ⟨11⟩ r' = .ok true ∧ Alike t t (.node ⟨11⟩) (.node r') ∧
    (t.nodeForm r' : Except Fault (Data NodeRef)) = .ok d := by
  have hend : EndsWithin nested.parts 4 (.node ⟨11⟩) := by decide
  have hnan := Store.not_isNaN nested_wellFormed (by decide) (by decide) (by decide) (by decide)
    (r := ⟨11⟩) (by decide)
  refine deserialize_nodeForm nested_wellFormed (by decide) hend.acyclic hnan ?_ [⟨8⟩] (by decide)
  rintro _ hu ⟨r, rfl, -⟩
  exact absurd (nested_wellFormed.has_reached (by decide) hu) (Nat.not_lt_zero _)

end LiveTree
