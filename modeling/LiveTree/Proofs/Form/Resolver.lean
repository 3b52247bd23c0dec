import LiveTree.Proofs.Form.RoundTrip

/-! Tables of types in use. A table starts with the built-in types and those that are given, and
grows by a placeholder whenever an id is asked for that it does not have yet. It never lets go of a
type, so whoever asks for an id again gets the same type, whatever has been rebuilt in between. -/

namespace LiveTree

open Store

variable {α β : Type} {s t : Store} {id : String} {q r : NodeRef}

/-- A table of types and a store, which rebuilding adds to. -/
structure Stock where
  table : TypeTable
  store : Store

namespace Stock

/-- Whether a table and a store have come from others by adding cells, and placeholders under ids
that had no type. -/
structure Grows (x y : Stock) : Prop where
  store : x.store.Extends y.store
  kept : ∀ id q, x.table.get? id = some q → y.table.get? id = some q
  made : ∀ id q, y.table.get? id = some q → x.table.get? id = some q ∨
    ¬ x.store.Has (.node q) ∧ y.store.Has (.node q) ∧ (y.store.node q).id = id ∧
      (y.store.node q).type = Builtin.type

namespace Grows

variable {x y z : Stock}

theorem refl (x : Stock) : x.Grows x := ⟨.refl, fun _ _ h => h, fun _ _ h => .inl h⟩

theorem trans (h : x.Grows y) (h' : y.Grows z) : x.Grows z where
  store := h.store.trans h'.store
  kept id q hq := h'.kept id q (h.kept id q hq)
  made id q hq := by
    obtain hq | ⟨hnew, hq⟩ := h'.made id q hq
    · refine (h.made id q hq).imp_right ?_
      rintro ⟨hnew, hhas, hid, htype⟩
      exact ⟨hnew, h'.store.has hhas, by rw [h'.store.node hhas, hid],
        by rw [h'.store.node hhas, htype]⟩
    · exact .inr ⟨fun hx => hnew (h.store.has hx), hq⟩

theorem of_store (h : x.store.Extends t) : x.Grows ⟨x.table, t⟩ :=
  ⟨h, fun _ _ h => h, fun _ _ h => .inl h⟩

theorem sound (h : x.Grows y) (hx : x.table.Sound x.store) : y.table.Sound y.store := by
  intro id q hq
  obtain hq | ⟨-, hhas, hid, -⟩ := h.made id q hq
  · exact hx.extend h.store id q hq
  · exact ⟨hhas, hid⟩

end Grows

end Stock

/-- Whether an operation, where it succeeds on what has come from a first table and store, lets both
grow and gives what a relation asks for from then on. -/
def Supplies (x : Stock) (m : RebuildM α) (R : Stock → α → Prop) : Prop :=
  ∀ y : Stock, x.Grows y → ∀ a table t, m y.table y.store = .ok (a, table) t →
    y.Grows ⟨table, t⟩ ∧ ∀ z, Stock.Grows ⟨table, t⟩ z → R z a

namespace Supplies

variable {x : Stock} {R : Stock → α → Prop} {S : Stock → β → Prop}

theorem mono {m : RebuildM α} {R' : Stock → α → Prop} (h : Supplies x m R)
    (hR : ∀ z a, x.Grows z → R z a → R' z a) : Supplies x m R' := fun y hy a table t hm =>
  have ⟨hgrows, ha⟩ := h y hy a table t hm
  ⟨hgrows, fun z hz => hR z a ((hy.trans hgrows).trans hz) (ha z hz)⟩

theorem pure {a : α} (h : ∀ z, x.Grows z → R z a) : Supplies x (Pure.pure a) R := by
  rintro y hy _ _ _ ⟨⟩
  exact ⟨.refl y, fun z hz => h z (hy.trans hz)⟩

theorem throw (e : Fault) : Supplies x (MonadExcept.throw e : RebuildM α) R := by
  rintro y - _ _ _ ⟨⟩

theorem bind {m : RebuildM α} {k : α → RebuildM β} (hm : Supplies x m R)
    (hk : ∀ a y, x.Grows y → (∀ z, y.Grows z → R z a) → Supplies y (k a) S) :
    Supplies x (m >>= k) S := by
  intro y hy b table' t' hb
  cases hma : m y.table y.store with
  | ok p t =>
    obtain ⟨a, table⟩ := p
    obtain ⟨hgrows, ha⟩ := hm y hy a table t hma
    have hkb : k a table t = .ok (b, table') t' := (bind_of_ok hma _).symm.trans hb
    obtain ⟨hgrows', hb⟩ := hk a ⟨table, t⟩ (hy.trans hgrows) ha _ (.refl _) b table' t' hkb
    exact ⟨hgrows.trans hgrows', hb⟩
  | error e t => cases (bind_of_error hma _).symm.trans hb

theorem mapM {f : α → RebuildM β} {T : Stock → α → β → Prop} {l : List α}
    (h : ∀ a ∈ l, ∀ x, Supplies x (f a) fun z b => T z a b) (x : Stock) :
    Supplies x (l.mapM f) fun z bs => List.Forall₂ (T z) l bs := by
  induction l generalizing x with
  | nil => exact .pure fun _ _ => .nil
  | cons a rest ih =>
    obtain ⟨hfirst, hrest⟩ := List.forall_mem_cons.mp h
    rw [List.mapM_cons]
    refine .bind (hfirst x) fun b y _ hb => .bind (ih hrest y) fun bs y' hy' hbs => ?_
    exact .pure fun z hz => .cons (hb z (hy'.trans hz)) (hbs z hz)

/-- What is rebuilt by adding one cell. -/
theorem update {f : Store → α × Store} {R : Store → α → Prop}
    (h : Rebuilds x.store (StoreM.update f : RebuildM α) R) :
    Supplies x (StoreM.update f : RebuildM α) fun z a => R z.store a := by
  rintro y hy _ _ _ ⟨⟩
  obtain ⟨a, _, t, hrun, hst, -, ha⟩ := h y.store ∅ hy.store nofun
  cases hrun
  exact ⟨.of_store hst, fun z hz => ha z.store hz.store⟩

/-- Asking for an id gives the type that the table has from then on. -/
theorem typeNode (x : Stock) (id : String) :
    Supplies x (RebuildM.typeNode id) fun z q => z.table.get? id = some q := by
  intro y _ q table t hq
  rw [RebuildM.typeNode, RebuildM.get_bind] at hq
  cases hid : y.table.get? id with
  | some q' =>
    rw [hid] at hq
    cases hq
    exact ⟨.refl y, fun z hz => hz.kept id _ hid⟩
  | none =>
    rw [hid] at hq
    cases hq
    refine ⟨⟨extends_allocNode _, fun id' q' hq' => ?_, fun id' q' hq' => ?_⟩,
      fun z hz => hz.kept id _ (Entries.get?_insert_self ..)⟩
    · have hne : id' ≠ id := by
        rintro rfl
        cases hid.symm.trans hq'
      exact (Entries.get?_insert_of_ne _ _ hne).trans hq'
    · by_cases e : id' = id
      · subst e
        rw [Entries.get?_insert_self] at hq'
        cases hq'
        have hnode := node_allocNode_self y.store
          ⟨id', Builtin.type, .ofTypeId (y.store.node Builtin.type).id, .none, .none, ∅, ∅, ∅⟩
        refine .inr ⟨Nat.lt_irrefl _, ?_, congrArg Node.id hnode, congrArg Node.type hnode⟩
        simp [Has]
      · rw [Entries.get?_insert_of_ne _ _ e] at hq'
        exact .inl hq'

end Supplies

/-- An id that has a type is answered with it, and nothing is added. -/
theorem RebuildM.typeNode_of_get? {table : TypeTable} (h : table.get? id = some q) (s : Store) :
    RebuildM.typeNode id table s = .ok (q, table) s := by
  rw [typeNode, get_bind, h]
  rfl

/-- Every id is answered. -/
theorem RebuildM.exists_typeNode (id : String) (x : Stock) :
    ∃ q y, RebuildM.typeNode id x.table x.store = .ok (q, y.table) y.store ∧ x.Grows y ∧
      y.table.get? id = some q := by
  have hok : ∃ q table t, RebuildM.typeNode id x.table x.store = .ok (q, table) t := by
    cases hid : x.table.get? id with
    | some q => exact ⟨q, _, _, typeNode_of_get? hid _⟩
    | none =>
      rw [typeNode, get_bind, hid]
      exact ⟨_, _, _, rfl⟩
  obtain ⟨q, table, t, hok⟩ := hok
  obtain ⟨hgrows, hq⟩ := Supplies.typeNode x id x (.refl x) q table t hok
  exact ⟨q, ⟨table, t⟩, hok, hgrows, hq _ (.refl _)⟩

/-! ### What an id stands for -/

/-- What an id stands for where some types are given: the last given type of that id, otherwise the
built-in type, otherwise a type that was made for it. -/
inductive Store.ResolvesTo (s : Store) (types : List NodeRef) (t : Store) (id : String) :
    NodeRef → Prop
  | given {before after : List NodeRef} {q : NodeRef} (htypes : types = before ++ q :: after)
      (hid : (s.node q).id = id) (hlast : ∀ r ∈ after, (s.node r).id ≠ id) :
    ResolvesTo s types t id q
  | builtin {q : NodeRef} (hgiven : ∀ r ∈ types, (s.node r).id ≠ id)
      (hbuiltin : (id, q) ∈ Builtin.all) : ResolvesTo s types t id q
  | placeholder {q : NodeRef} (hgiven : ∀ r ∈ types, (s.node r).id ≠ id)
      (hbuiltin : id ∉ Builtin.all.map Prod.fst) (hnew : ¬ s.Has (.node q))
      (hid : (t.node q).id = id) (htype : (t.node q).type = Builtin.type) :
    ResolvesTo s types t id q

/-- Of the types that are added to a table the last one of an id counts. -/
theorem TypeTable.get?_insertAll_cases (table : TypeTable) (s : Store) (types : List NodeRef)
    (id : String) :
    (∃ before q after, types = before ++ q :: after ∧ (s.node q).id = id ∧
        (∀ r ∈ after, (s.node r).id ≠ id) ∧
        (table.insertAll (types.map fun r => ((s.node r).id, r))).get? id = some q) ∨
      (∀ r ∈ types, (s.node r).id ≠ id) ∧
        (table.insertAll (types.map fun r => ((s.node r).id, r))).get? id = table.get? id := by
  induction types generalizing table with
  | nil => exact .inr ⟨nofun, rfl⟩
  | cons q rest ih =>
    obtain ⟨before, r, after, rfl, hid, hlast, hr⟩ | ⟨hrest, hget⟩ :=
      ih (table.insert (s.node q).id q)
    · exact .inl ⟨q :: before, r, after, rfl, hid, hlast, hr⟩
    · by_cases hq : (s.node q).id = id
      · refine .inl ⟨[], q, rest, rfl, hq, hrest, hget.trans ?_⟩
        rw [hq]
        exact Entries.get?_insert_self ..
      · refine .inr ⟨List.forall_mem_cons.mpr ⟨hq, hrest⟩, hget.trans ?_⟩
        exact Entries.get?_insert_of_ne _ _ (Ne.symm hq)

/-- The types of a table that has grown from the built-in and the given types are the right ones. -/
theorem Stock.Grows.resolves {types : List NodeRef} {y : Stock}
    (h : Stock.Grows ⟨.withTypes s types, s⟩ y) (hq : y.table.get? id = some q) :
    s.ResolvesTo types y.store id q := by
  have hbuiltin : TypeTable.builtin.toList = Builtin.all := Entries.toList_ofList (by decide)
  obtain ⟨before, r, after, htypes, hid, hlast, hr⟩ | ⟨hgiven, hget⟩ :=
    TypeTable.builtin.get?_insertAll_cases s types id
  · cases (h.kept id r hr).symm.trans hq
    exact .given htypes hid hlast
  · cases hb : TypeTable.builtin.get? id with
    | some r =>
      cases (h.kept id r (hget.trans hb)).symm.trans hq
      exact .builtin hgiven (hbuiltin ▸ Entries.get?_eq_some_iff.mp hb)
    | none =>
      obtain hq | ⟨hnew, -, hid, htype⟩ := h.made id q hq
      · cases hq.symm.trans (hget.trans hb)
      · refine .placeholder hgiven (fun hmem => ?_) hnew hid htype
        obtain ⟨⟨_, r⟩, hr, rfl⟩ := List.mem_map.mp hmem
        cases hb.symm.trans (Entries.get?_eq_some_iff.mpr (hbuiltin.symm ▸ hr))

end LiveTree
