import LiveTree.Proofs.Form.RoundTrip
import LiveTree.Proofs.Form.Schema

/-! Rebuilding settles. Whatever data in the interchange format is accepted as a node, the node made
of it holds no dictionary that looks like a serialized node, as what stood for a node in the data
has become one. So the node can be saved and loaded again, as often as one likes, and stays the
same. -/

namespace LiveTree

open Store

variable {α β ν : Type} {s t : Store} {v : Value}

/-- Data of the interchange format: no tuples and no nodes in it, every float a number, and the
names in a dictionary all different. -/
inductive Data.Interchange : Data ν → Prop
  | null : Interchange .null
  | bool (b : Bool) : Interchange (.bool b)
  | int (i : Int) : Interchange (.int i)
  | float {x : Float} (h : Number.Magnitude.ofFloat x ≠ .nan) : Interchange (.float x)
  | str (t : String) : Interchange (.str t)
  | list {items : List (Data ν)} (h : ∀ d ∈ items, Interchange d) : Interchange (.list items)
  | dict {es : List (String × Data ν)} (hnames : (es.map Prod.fst).Nodup)
      (h : ∀ e ∈ es, Interchange e.2) : Interchange (.dict es)

/-- Whether a value is all there, descents from it end, and nothing at or below it looks like a
serialized node or is not a number. -/
inductive Store.Settled (s : Store) : Value → Prop
  | mk {v : Value} (has : s.Has v) (hplain : ¬ s.LooksLikeNode v) (hnan : ¬ v.IsNaN)
      (h : ∀ p ∈ s.parts v, Settled s p) : Settled s v

namespace Store.Settled

theorem scalar (h : v.cell? = none) (hnan : ¬ v.IsNaN) : s.Settled v := by
  cases v with
  | node r => cases h
  | list r => cases h
  | tuple r => cases h
  | dict r => cases h
  | _ => exact .mk trivial (by simp [Store.LooksLikeNode]) hnan (by simp [Store.parts])

theorem node {r : NodeRef} (hr : s.Has (.node r)) (h : ∀ p ∈ s.parts (.node r), s.Settled p) :
    s.Settled (.node r) :=
  .mk hr (by simp [Store.LooksLikeNode]) (by simp [Value.IsNaN]) h

theorem list {r : ListRef} (hr : s.Has (.list r)) (h : ∀ p ∈ s.list r, s.Settled p) :
    s.Settled (.list r) :=
  .mk hr (by simp [Store.LooksLikeNode]) (by simp [Value.IsNaN]) h

theorem has (h : s.Settled v) : s.Has v := by
  cases h
  assumption

theorem reached (h : s.Settled v) {u : Value} (hu : Reaches s.parts v u) : s.Settled u :=
  hu.closed h fun x _ hx => by
    cases hx
    assumption

theorem not_cycle (h : s.Settled v) : ¬ Relation.TransGen (Above s.parts) v v := by
  induction h with
  | mk _ _ _ _ ih =>
    intro hcycle
    obtain ⟨p, hp, hback⟩ := Relation.TransGen.head'_iff.mp hcycle
    exact ih p hp (Relation.TransGen.tail' hback hp)

theorem acyclic (h : s.Settled v) : Acyclic s.parts v := fun _ hu => (h.reached hu).not_cycle

theorem recoverable (h : s.Settled v) (hs : s.WellFormed) : s.Recoverable v where
  has := h.has
  ends := ⟨_, hs.endsWithin h.has h.acyclic⟩
  plain u hu := by
    cases h.reached hu
    assumption

end Store.Settled

/-! ### Rebuilding without knowing that it succeeds -/

/-- Whether an operation, where it succeeds on a well-formed store that extends a first one, with a
sound table, adds cells and sound types only, keeps the store well-formed, and gives what a relation
asks for from then on. -/
def Settles (s : Store) (m : RebuildM α) (R : Store → α → Prop) : Prop :=
  ∀ s₁ (table : TypeTable), s.Extends s₁ → s₁.WellFormed → table.Sound s₁ →
    ∀ a table' s₂, m table s₁ = .ok (a, table') s₂ → s₁.Extends s₂ ∧ s₂.WellFormed ∧
      TypeTable.Sound table' s₂ ∧ ∀ t, s₂.Extends t → R t a

namespace Settles

variable {R : Store → α → Prop} {S : Store → β → Prop}

theorem extend {m : RebuildM α} (h : Settles s m R) (hst : s.Extends t) : Settles t m R :=
  fun s₁ table h₁ => h s₁ table (hst.trans h₁)

theorem pure {a : α} (h : ∀ t, s.Extends t → R t a) : Settles s (Pure.pure a) R := by
  rintro s₁ table h₁ hs₁ htable _ _ _ ⟨⟩
  exact ⟨.refl, hs₁, htable, fun t ht => h t (h₁.trans ht)⟩

theorem throw (e : Fault) : Settles s (MonadExcept.throw e : RebuildM α) R := by
  rintro s₁ table - - - _ _ _ ⟨⟩

theorem bind {m : RebuildM α} {k : α → RebuildM β} (hm : Settles s m R)
    (hk : ∀ a s₁, s.Extends s₁ → (∀ t, s₁.Extends t → R t a) → Settles s₁ (k a) S) :
    Settles s (m >>= k) S := by
  intro s₁ table h₁ hs₁ htable b table'' s₃ hb
  cases hma : m table s₁ with
  | ok p s₂ =>
    obtain ⟨a, table'⟩ := p
    obtain ⟨h₁₂, hs₂, htable', ha⟩ := hm s₁ table h₁ hs₁ htable a table' s₂ hma
    have hkb : k a table' s₂ = .ok (b, table'') s₃ := (bind_of_ok hma _).symm.trans hb
    obtain ⟨h₂₃, hs₃, htable'', hb⟩ :=
      hk a s₂ (h₁.trans h₁₂) ha s₂ table' .refl hs₂ htable' b table'' s₃ hkb
    exact ⟨h₁₂.trans h₂₃, hs₃, htable'', hb⟩
  | error e s₂ => cases (bind_of_error hma _).symm.trans hb

theorem mono {m : RebuildM α} {R' : Store → α → Prop} (h : Settles s m R)
    (hR : ∀ t a, s.Extends t → R t a → R' t a) : Settles s m R' :=
  fun s₁ table h₁ hs₁ htable a table' s₂ hma =>
    have ⟨h₁₂, hs₂, htable', ha⟩ := h s₁ table h₁ hs₁ htable a table' s₂ hma
    ⟨h₁₂, hs₂, htable', fun t ht => hR t a ((h₁.trans h₁₂).trans ht) (ha t ht)⟩

theorem mapM {f : α → RebuildM β} {T : Store → α → β → Prop} {l : List α}
    (h : ∀ a ∈ l, Settles s (f a) fun t b => T t a b) :
    Settles s (l.mapM f) fun t bs => List.Forall₂ (T t) l bs := by
  induction l generalizing s with
  | nil => exact .pure fun _ _ => .nil
  | cons a rest ih =>
    obtain ⟨hfirst, hrest⟩ := List.forall_mem_cons.mp h
    rw [List.mapM_cons]
    refine .bind hfirst fun b s₁ h₁ hb => .bind (ih fun c hc => (hrest c hc).extend h₁)
      fun bs s₂ h₂ hbs => ?_
    exact .pure fun t ht => .cons (hb t (h₂.trans ht)) (hbs t ht)

/-- What is known to be done to every store, and keeps it well-formed. -/
theorem of_rebuilds {m : RebuildM α} (h : Rebuilds s m R)
    (hm : ∀ s₁ (table : TypeTable), s.Extends s₁ → s₁.WellFormed → ∀ p s₂,
      m table s₁ = .ok p s₂ → s₂.WellFormed) : Settles s m R := by
  intro s₁ table h₁ hs₁ htable a table' s₂ hma
  obtain ⟨a', table'', s₂', hma', h₁₂, htable', ha⟩ := h s₁ table h₁ htable
  cases hma'.symm.trans hma
  exact ⟨h₁₂, hm s₁ table h₁ hs₁ _ _ hma, htable', ha⟩

theorem newList {l : List Value} (hl : ∀ v ∈ l, s.Has v) :
    Settles s (StoreM.update (·.newList l) : RebuildM Value)
      fun t v => ∃ r, v = .list r ∧ t.Has v ∧ t.list r = l :=
  of_rebuilds (.newList l) fun s₁ table h₁ hs₁ => by
    rintro _ _ ⟨⟩
    exact hs₁.allocList fun v hv => h₁.has (hl v hv)

theorem newDict {d : Entries Value} (hd : ∀ v ∈ d.values, s.Has v) :
    Settles s (StoreM.update (·.newDict d) : RebuildM Value)
      fun t v => ∃ r, v = .dict r ∧ t.Has v ∧ t.dict r = d :=
  of_rebuilds (.newDict d) fun s₁ table h₁ hs₁ => by
    rintro _ _ ⟨⟩
    exact hs₁.allocDict fun v hv => h₁.has (hd v hv)

theorem typeNode (id : String) :
    Settles s (RebuildM.typeNode id) fun t r => t.Has (.node r) ∧ (t.node r).id = id :=
  of_rebuilds (.typeNode id) fun s₁ table h₁ hs₁ p s₂ hp => by
    rw [RebuildM.typeNode, RebuildM.get_bind] at hp
    cases hid : table.get? id with
    | some r =>
      rw [hid] at hp
      cases hp
      exact hs₁
    | none =>
      rw [hid] at hp
      cases hp
      have htype := (hs₁.builtin ("Type", Builtin.type) (by decide)).1
      refine hs₁.allocNode htype rfl fun p hp => ?_
      rcases Node.mem_parts hp with rfl | rfl | ⟨role, q, hq, -⟩
      · trivial
      · trivial
      · cases role <;> cases hq

theorem node {id typeId : String} {type : NodeRef} {c : Content}
    (htype : ∀ t, s.Extends t → t.Has (.node type) ∧ (t.node type).id = typeId)
    (hvalue : s.Has c.value) (hdefault : s.Has c.default)
    (hmetadata : ∀ q ∈ c.metadata.values, s.Has (.node q))
    (hconstraints : ∀ q ∈ c.constraints.values, s.Has (.node q))
    (hchildren : ∀ q ∈ c.children.values, s.Has (.node q)) :
    Settles s (Make.node id type c : RebuildM NodeRef) fun t r => t.Has (.node r) ∧ t.node r =
      ⟨id, type, .ofTypeId typeId, c.value, c.default, c.metadata, c.constraints, c.children⟩ :=
  of_rebuilds (.node c fun t ht => (htype t ht).2) fun s₁ table h₁ hs₁ => by
    rintro _ _ ⟨⟩
    refine hs₁.allocNode (htype s₁ h₁).1 rfl fun p hp => ?_
    rcases Node.mem_parts hp with rfl | rfl | ⟨role, q, hq, rfl⟩
    · exact h₁.has hvalue
    · exact h₁.has hdefault
    · cases role with
      | metadata => exact h₁.has (hmetadata q hq)
      | constraints => exact h₁.has (hconstraints q hq)
      | children => exact h₁.has (hchildren q hq)

end Settles

/-! ### Nodes -/

section Nodes

variable {value : Data NodeRef → RebuildM Value}

theorem settles_entries {ps : List (String × Payload NodeRef)}
    (h : ∀ q ∈ ps, ∀ s, Settles s (q.2.rebuild value) fun t r => t.Settled (.node r)) (s : Store) :
    Settles s (Payload.rebuildEntries value ps) fun t l =>
      ∀ r ∈ (Entries.ofList l).values, t.Settled (.node r) := by
  suffices hall : Settles s (Payload.rebuildEntries value ps) fun t l =>
      ∀ q ∈ l, t.Settled (.node q.2) by
    refine hall.mono fun t l _ hl r hr => ?_
    obtain ⟨q, hq, rfl⟩ := List.mem_map.mp (Entries.mem_values_ofList hr)
    exact hl q hq
  induction ps generalizing s with
  | nil => exact .pure fun _ _ => by simp
  | cons q rest ih =>
    obtain ⟨k, p⟩ := q
    obtain ⟨hfirst, hrest⟩ := List.forall_mem_cons.mp h
    rw [Payload.rebuildEntries]
    refine .bind (hfirst s) fun r s₁ h₁ hr => .bind (ih hrest s₁) fun l s₂ h₂ hl => ?_
    exact .pure fun t ht => List.forall_mem_cons.mpr ⟨hr t (h₂.trans ht), hl t ht⟩

/-- The values in the parts that are read of data of the interchange format are of that format. -/
theorem settles_orInvalid {d : Data NodeRef} (hd : d.Interchange) (s : Store) :
    Settles s (Payload.orInvalid d) fun _ p => p.Holds Data.Interchange := by
  rw [Payload.orInvalid]
  cases hp : Payload.ofData d with
  | error issues => exact .throw _
  | ok p =>
    have hentries : ∀ es : List (String × Data NodeRef), (Data.dict es).Interchange →
        ∀ e ∈ es, e.2.Interchange := fun es hes => by
      cases hes
      assumption
    refine .pure fun _ _ => Payload.holds_within hp .null hentries fun k e he => ?_
    cases d with
    | dict es => exact hentries es hd _ (Entries.mem_of_find_eq_some he)
    | _ => cases he

/-- A node that is rebuilt from its parts is settled if the values in it are. -/
theorem settles_payload {p : Payload NodeRef}
    (h : p.Holds fun e => ∀ s, Settles s (value e) Store.Settled) (s : Store) :
    Settles s (p.rebuild value) fun t r => t.Settled (.node r) := by
  induction h generalizing s with
  | mk hvalue hdefault _ _ _ hmetadata hconstraints hchildren =>
    rw [Payload.rebuild]
    refine .bind (.typeNode _) fun type s₁ h₁ htype => .bind (hvalue s₁) fun v s₂ h₂ hv =>
      .bind (hdefault s₂) fun d s₃ h₃ hd => ?_
    refine .bind (settles_entries hmetadata s₃) fun metadata s₄ h₄ hme =>
      .bind (settles_entries hconstraints s₄) fun constraints s₅ h₅ hco =>
        .bind (settles_entries hchildren s₅) fun children s₆ h₆ hch => ?_
    have h₃₆ := (h₄.trans h₅).trans h₆
    have h₂₆ := h₃.trans h₃₆
    refine (Settles.node (fun t ht => htype t ((h₂.trans h₂₆).trans ht)) (hv s₆ h₂₆).has
      (hd s₆ h₃₆).has (fun q hq => (hme s₆ (h₅.trans h₆) q hq).has)
      (fun q hq => (hco s₆ h₆ q hq).has) fun q hq => (hch s₆ .refl q hq).has).mono ?_
    rintro t r ht ⟨hr, hnode⟩
    refine .node hr fun p hp => ?_
    rw [parts, hnode] at hp
    rcases Node.mem_parts hp with rfl | rfl | ⟨role, q, hq, rfl⟩
    · exact hv t (h₂₆.trans ht)
    · exact hd t (h₃₆.trans ht)
    · cases role with
      | metadata => exact hme t ((h₅.trans h₆).trans ht) q hq
      | constraints => exact hco t (h₆.trans ht) q hq
      | children => exact hch t ht q hq

end Nodes

/-! ### Values -/

/-- A value that may have been rebuilt from data: it is settled, and if it is a text, a node or a
dictionary with a text as `id`, the data is that text, stands for a node or has that `id`. -/
structure RebuiltFrom (t : Store) (d : Data NodeRef) (v : Value) : Prop where
  settled : t.Settled v
  text : ∀ x, v = .str x → d = .str x
  stands : ∀ r, v = .node r → d.standsForNode = true
  id : ∀ r x, v = .dict r → (t.dict r).get? "id" = some (.str x) → d.get? "id" = some (.str x)

namespace RebuiltFrom

variable {d : Data NodeRef}

theorem scalar (h : v.cell? = none) (hnan : ¬ v.IsNaN) (htext : ∀ x, v = .str x → d = .str x) :
    RebuiltFrom t d v where
  settled := .scalar h hnan
  text := htext
  stands r e := by
    subst e
    cases h
  id r _ e := by
    subst e
    cases h

theorem node {r : NodeRef} (h : t.Settled (.node r)) (hd : d.standsForNode = true) :
    RebuiltFrom t d (.node r) := ⟨h, by simp, fun _ _ => hd, by simp⟩

theorem list {r : ListRef} (h : t.Settled (.list r)) : RebuiltFrom t d (.list r) :=
  ⟨h, by simp, by simp, by simp⟩

/-- A dictionary of what has been rebuilt from entries that do not stand for a node. -/
theorem dict {es : List (String × Data NodeRef)} {l : List (String × Value)}
    {r : DictRef} (hnames : (es.map Prod.fst).Nodup)
    (hplain : ¬ (Data.dict es).standsForNode = true) (hr : t.Has (.dict r))
    (hdict : t.dict r = .ofList l)
    (h : List.Forall₂ (fun e w => w.1 = e.1 ∧ RebuiltFrom t e.2 w.2) es l) :
    RebuiltFrom t (.dict es) (.dict r) := by
  have hnames' : (l.map Prod.fst).Nodup := by
    rwa [(forall₂_pairs.mp h).1]
  -- what stands under a name has been rebuilt from the data under that name
  have hentry : ∀ k w, (t.dict r).get? k = some w →
      ∃ e, (Data.dict es).get? k = some e ∧ RebuiltFrom t e w := by
    intro k w hw
    rw [hdict, Entries.get?_eq_some_iff, Entries.toList_ofList hnames'] at hw
    obtain ⟨e, he, hname, hrebuilt⟩ := exists_partner h.flip (k, w) hw
    have hname : k = e.1 := hname
    exact ⟨e.2, Entries.find_eq_some_of_mem hnames (hname ▸ he), hrebuilt⟩
  have hid : ∀ x, (t.dict r).get? "id" = some (.str x) →
      (Data.dict es).get? "id" = some (.str x) := fun x hx => by
    obtain ⟨e, he, hrebuilt⟩ := hentry "id" _ hx
    rw [he, hrebuilt.text x rfl]
  refine ⟨.mk hr ?_ (by simp [Value.IsNaN]) fun p hp => ?_, by simp, by simp, ?_⟩
  · rintro ⟨_, ⟨⟩, ⟨x, hx⟩, htype⟩
    refine hplain ?_
    have htypeId : ∃ y, ((Data.dict es).get? "type").bind (Data.get? "id") = some (.str y) := by
      rcases htype with ⟨q, hq⟩ | ⟨q, y, hq, hy⟩
      · obtain ⟨e, he, hrebuilt⟩ := hentry "type" _ hq
        obtain ⟨⟨y, hy⟩, -⟩ := Data.standsForNode_iff.mp (hrebuilt.stands q rfl)
        exact ⟨y, by rw [he]; exact hy⟩
      · obtain ⟨e, he, hrebuilt⟩ := hentry "type" _ hq
        exact ⟨y, by rw [he]; exact hrebuilt.id q y rfl hy⟩
    exact Data.standsForNode_iff.mpr ⟨⟨x, hid x hx⟩, htypeId⟩
  · obtain ⟨k, hk⟩ := Entries.mem_values_iff.mp hp
    obtain ⟨e, -, hrebuilt⟩ := hentry k p hk
    exact hrebuilt.settled
  · rintro _ x ⟨⟩ hx
    exact hid x hx

end RebuiltFrom

/-- Nothing that is rebuilt from data of the interchange format looks like a serialized node. -/
theorem settles_rebuildTo {d : Data NodeRef} (hd : d.Interchange) (n : ℕ) (s : Store) :
    Settles s (d.rebuildTo n) fun t v => RebuiltFrom t d v := by
  induction n generalizing d s with
  | zero => exact .throw _
  | succ n ih =>
    cases hd with
    | null => exact .pure fun _ _ => .scalar rfl (by simp [Value.IsNaN]) (by simp)
    | bool => exact .pure fun _ _ => .scalar rfl (by simp [Value.IsNaN]) (by simp)
    | int => exact .pure fun _ _ => .scalar rfl (by simp [Value.IsNaN]) (by simp)
    | str => exact .pure fun _ _ => .scalar rfl (by simp [Value.IsNaN]) (by simp)
    | @float x hx =>
      refine .pure fun _ _ => .scalar rfl ?_ (by simp)
      rintro ⟨_, ⟨⟩, hnan⟩
      exact hx hnan
    | @list items h =>
      rw [Data.rebuildTo]
      refine .bind (.mapM fun d hd => ih (h d hd) s) fun vs s₁ h₁ hvs => ?_
      have hsettled : ∀ t, s₁.Extends t → ∀ v ∈ vs, t.Settled v := fun t ht v hv => by
        obtain ⟨d, -, hrebuilt⟩ := exists_partner (hvs t ht).flip v hv
        exact hrebuilt.settled
      refine (Settles.newList fun v hv => (hsettled s₁ .refl v hv).has).mono ?_
      rintro t _ ht ⟨r, rfl, hr, hlist⟩
      refine .list (.list hr fun p hp => hsettled t ht p ?_)
      rwa [hlist] at hp
    | @dict es hnames h =>
      rw [Data.rebuildTo]
      split
      · rename_i hstands
        refine .bind (settles_orInvalid (.dict hnames h) s) fun p s₁ h₁ hp => ?_
        have hvalues := (hp s₁ .refl).mono fun e he s =>
          (ih he s).mono fun t v _ hv => hv.settled
        refine .bind (settles_payload hvalues s₁) fun r s₂ h₂ hr => .pure fun t ht => ?_
        exact .node (hr t ht) hstands
      · rename_i hplain
        refine .bind (.mapM (T := fun t e w => w.1 = e.1 ∧ RebuiltFrom t e.2 w.2) fun e he =>
          .bind (ih (h e he) s) fun v s₁ h₁ hv => .pure fun t ht => ⟨rfl, hv t ht⟩)
          fun l s₁ h₁ hl => ?_
        have hsettled : ∀ v ∈ (Entries.ofList l).values, s₁.Settled v := fun v hv => by
          obtain ⟨w, hw, rfl⟩ := List.mem_map.mp (Entries.mem_values_ofList hv)
          obtain ⟨e, -, -, hrebuilt⟩ := exists_partner (hl s₁ .refl).flip w hw
          exact hrebuilt.settled
        refine (Settles.newDict fun v hv => (hsettled v hv).has).mono ?_
        rintro t _ ht ⟨r, rfl, hr, hdict⟩
        exact .dict hnames hplain hr hdict (hl t ht)

/-! ### Saving and loading again -/

/-- Data of the interchange format that is accepted as a node makes a settled one. -/
theorem deserialize_settles (hs : s.WellFormed) {types : TypeTable} (htypes : types.Sound s)
    {d : Data NodeRef} (hd : d.Interchange) {r : NodeRef} (hr : deserialize d types s = .ok r t) :
    s.Extends t ∧ t.WellFormed ∧ ∀ u, t.Extends u → u.Settled (.node r) := by
  have hnode : Settles s d.rebuildNode fun t r => t.Settled (.node r) := by
    refine .bind (settles_orInvalid hd s) fun p s₁ h₁ hp => ?_
    exact settles_payload ((hp s₁ .refl).mono fun e he s =>
      (settles_rebuildTo he _ s).mono fun t v _ hv => hv.settled) s₁
  cases hrun : d.rebuildNode types s with
  | ok p t' =>
    obtain ⟨q, table⟩ := p
    have hok : deserialize d types s = .ok q t' := bind_of_ok hrun _
    cases hok.symm.trans hr
    obtain ⟨hst, ht, -, hsettled⟩ := hnode s types .refl hs htypes _ _ _ hrun
    exact ⟨hst, ht, hsettled⟩
  | error e t' =>
    have herror : deserialize d types s = .error e t' := bind_of_error hrun _
    cases herror.symm.trans hr

end LiveTree
