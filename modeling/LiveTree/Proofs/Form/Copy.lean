import LiveTree.Form.Clone
import LiveTree.Proofs.Form.Apart
import LiveTree.Proofs.Form.Written
import LiveTree.Proofs.Keeping
import LiveTree.Proofs.Store.Sealed

/-! Copies. A copy is made of new cells, except for tuples, which are shared, and each new cell has
one place in it. When tuples hold scalars and tuples only, a copy looks like what it is a copy of, in
every later store that holds the new cells as they were made. -/

namespace LiveTree

open Store

variable {α β : Type} {s t u : Store} {v : Value}

/-! ### Building -/

/-- Whether an operation succeeds on every well-formed store that extends a first one, adds cells
only, keeps the store well-formed, and gives what a relation asks for from then on. -/
def Builds (s : Store) (m : StoreM α) (R : Store → α → Prop) : Prop :=
  ∀ s₁, s.Extends s₁ → s₁.WellFormed → ∃ a s₂, m s₁ = .ok a s₂ ∧ s₁.Extends s₂ ∧ s₂.WellFormed ∧
    ∀ t, s₂.Extends t → R t a

namespace Builds

variable {R : Store → α → Prop} {S : Store → β → Prop}

theorem extend {m : StoreM α} (h : Builds s m R) (hst : s.Extends t) : Builds t m R :=
  fun s₁ h₁ => h s₁ (hst.trans h₁)

theorem pure {a : α} (h : ∀ t, s.Extends t → R t a) : Builds s (Pure.pure a) R :=
  fun s₁ h₁ hs₁ => ⟨a, s₁, rfl, .refl, hs₁, fun t ht => h t (h₁.trans ht)⟩

theorem bind {m : StoreM α} {k : α → StoreM β} (hm : Builds s m R)
    (hk : ∀ a s₁, s.Extends s₁ → (∀ t, s₁.Extends t → R t a) → Builds s₁ (k a) S) :
    Builds s (m >>= k) S := by
  intro s₁ h₁ hs₁
  obtain ⟨a, s₂, hma, h₁₂, hs₂, ha⟩ := hm s₁ h₁ hs₁
  obtain ⟨b, s₃, hkb, h₂₃, hs₃, hb⟩ := hk a s₂ (h₁.trans h₁₂) ha s₂ .refl hs₂
  exact ⟨b, s₃, (bind_of_ok hma k).trans hkb, h₁₂.trans h₂₃, hs₃, hb⟩

theorem mono {m : StoreM α} {R' : Store → α → Prop} (hm : Builds s m R)
    (h : ∀ t a, s.Extends t → R t a → R' t a) : Builds s m R' := fun s₁ h₁ hs₁ =>
  have ⟨a, s₂, hma, h₁₂, hs₂, ha⟩ := hm s₁ h₁ hs₁
  ⟨a, s₂, hma, h₁₂, hs₂, fun t ht => h t a ((h₁.trans h₁₂).trans ht) (ha t ht)⟩

/-- What is read of the store is read of one that extends the first. -/
theorem get_bind {k : Store → StoreM β} (hk : ∀ s₁, s.Extends s₁ → Builds s₁ (k s₁) S) :
    Builds s (get >>= k) S := fun s₁ h₁ => hk s₁ h₁ s₁ .refl

/-- Partners of the elements of a list are built one after another, so they are apart if each of them
is made of new cells. -/
theorem mapM_apart {f : α → StoreM β} {T : Store → α → β → Prop} {C : β → Store → List Value}
    {l : List α} (h : ∀ a ∈ l, ∀ s₁, s.Extends s₁ →
      Builds s₁ (f a) fun t b => T t a b ∧ Apart s₁ (C b) t) :
    Builds s (l.mapM f) fun t bs =>
      List.Forall₂ (T t) l bs ∧ Apart s (fun t => bs.flatMap (C · t)) t := by
  induction l generalizing s with
  | nil => exact .pure fun _ _ => ⟨.nil, .nil⟩
  | cons a rest ih =>
    obtain ⟨hfirst, hrest⟩ := List.forall_mem_cons.mp h
    rw [List.mapM_cons]
    refine .bind (hfirst s .refl) fun b s₁ h₁ hb =>
      .bind (ih fun c hc s₂ h₂ => hrest c hc s₂ (h₁.trans h₂)) fun bs s₂ h₂ hbs => ?_
    refine .pure fun t ht => ⟨.cons (hb t (h₂.trans ht)).1 (hbs t ht).1, ?_⟩
    exact .append h₁ (fun t ht => (hb t ht).2) (hbs t ht).2 (h₂.trans ht)

theorem mapM {f : α → StoreM β} {T : Store → α → β → Prop} {l : List α}
    (h : ∀ a ∈ l, Builds s (f a) fun t => T t a) :
    Builds s (l.mapM f) fun t bs => List.Forall₂ (T t) l bs :=
  (mapM_apart (C := fun _ _ => []) fun a ha _ h₁ =>
    ((h a ha).extend h₁).mono fun _ _ _ hb => ⟨hb, .nil⟩).mono fun _ _ _ hbs => hbs.1

theorem newList {l : List Value} (hl : ∀ p ∈ l, s.Has p) :
    Builds s (.update (·.newList l)) fun t v =>
      ∃ r, v = .list r ∧ s.Between t (.list r) ∧ t.list r = l := fun s₁ h₁ hs₁ => by
  have hb : s₁.Between (s₁.allocList l).2 (.list (s₁.allocList l).1) := by
    constructor <;> simp [Has, allocList]
  refine ⟨_, _, rfl, extends_allocList l, hs₁.allocList fun p hp => h₁.has (hl p hp),
    fun t ht => ⟨_, rfl, ⟨fun h => hb.1 (h₁.has h), ht.has hb.2⟩, ?_⟩⟩
  exact Eq.trans (ht.agree hb.2) (list_allocList l)

theorem newDict {d : Entries Value} (hd : ∀ p ∈ d.values, s.Has p) :
    Builds s (.update (·.newDict d)) fun t v =>
      ∃ r, v = .dict r ∧ s.Between t (.dict r) ∧ t.dict r = d := fun s₁ h₁ hs₁ => by
  have hb : s₁.Between (s₁.allocDict d).2 (.dict (s₁.allocDict d).1) := by
    constructor <;> simp [Has, allocDict]
  refine ⟨_, _, rfl, extends_allocDict d, hs₁.allocDict fun p hp => h₁.has (hd p hp),
    fun t ht => ⟨_, rfl, ⟨fun h => hb.1 (h₁.has h), ht.has hb.2⟩, ?_⟩⟩
  exact Eq.trans (ht.agree hb.2) (dict_allocDict d)

/-- A new node has the kind that goes with its type. -/
theorem node {id : String} {type : NodeRef} {c : Content} {n : Node}
    (hn : n = ⟨id, type, .ofTypeId (s.node type).id, c.value, c.default, c.metadata, c.constraints,
      c.children⟩) (htype : s.Has (.node type)) (hparts : ∀ p ∈ n.parts, s.Has p) :
    Builds s (Make.node id type c) fun t r => s.Between t (.node r) ∧ t.node r = n :=
  fun s₁ h₁ hs₁ => by
  subst hn
  rw [← h₁.node htype] at hparts ⊢
  have hb : ∀ n, s₁.Between (s₁.allocNode n).2 (.node (s₁.allocNode n).1) := fun n => by
    constructor <;> simp [Has, allocNode]
  refine ⟨_, _, rfl, extends_allocNode _, hs₁.allocNode (h₁.has htype) rfl fun p hp =>
    h₁.has (hparts p hp), fun t ht => ⟨⟨fun h => (hb default).1 (h₁.has h), ht.has (hb _).2⟩, ?_⟩⟩
  exact Eq.trans (ht.agree (hb _).2) (node_allocNode_self s₁ _)

end Builds

/-! ### Copies -/

/-- Copies of values of an earlier store in a later one. Scalars and tuples are their own copies;
lists, dictionaries and nodes have cells that came between the two stores, with copies in them. -/
inductive CopyOf (s t : Store) : Value → Value → Prop
  | scalar {v : Value} (h : v.cell? = none) : CopyOf s t v v
  | tuple (r : TupleRef) : CopyOf s t (.tuple r) (.tuple r)
  | list {a b : ListRef} (hnew : s.Between t (.list b))
      (h : List.Forall₂ (CopyOf s t) (s.list a) (t.list b)) : CopyOf s t (.list a) (.list b)
  | dict {a b : DictRef} (hnew : s.Between t (.dict b)) (hkeys : (t.dict b).keys = (s.dict a).keys)
      (h : List.Forall₂ (CopyOf s t) (s.dict a).values (t.dict b).values) :
      CopyOf s t (.dict a) (.dict b)
  | node {a b : NodeRef} (hnew : s.Between t (.node b)) (hid : (t.node b).id = (s.node a).id)
      (htype : (t.node b).type = (s.node a).type) (hkind : (t.node b).kind = (s.node a).kind)
      (hvalue : CopyOf s t (s.node a).value (t.node b).value)
      (hdefault : CopyOf s t (s.node a).default (t.node b).default)
      (hkeys : ∀ role, ((t.node b).entries role).keys = ((s.node a).entries role).keys)
      (h : ∀ role, List.Forall₂ (fun x y => CopyOf s t (.node x) (.node y))
        ((s.node a).entries role).values ((t.node b).entries role).values) :
      CopyOf s t (.node a) (.node b)

/-- Whether the tuples at or below a value hold scalars and tuples only. -/
def Store.PlainTuples (s : Store) (v : Value) : Prop :=
  ∀ r, Reaches s.parts v (.tuple r) → ∀ p ∈ s.tuple r, p.cell? = none ∨ ∃ q, p = .tuple q

namespace Store.PlainTuples

theorem below (h : s.PlainTuples v) {p : Value} (hp : p ∈ s.parts v) : s.PlainTuples p :=
  fun r hr => h r (hr.of_below hp)

/-- Nothing but scalars and tuples is reached from such a tuple. -/
theorem of_tuple (h : s.PlainTuples v) {q : TupleRef} (hq : Reaches s.parts v (.tuple q))
    {u : Value} (hu : Reaches s.parts (.tuple q) u) : u.cell? = none ∨ ∃ p, u = .tuple p := by
  refine hu.closed (P := fun u => u.cell? = none ∨ ∃ p, u = .tuple p) (.inr ⟨q, rfl⟩) ?_
  rintro x hx (hscalar | ⟨p, rfl⟩) y hy
  · rw [parts_of_cell?_eq_none s hscalar] at hy
    cases hy
  · exact h p (hq.trans hx) y hy

end Store.PlainTuples

/-- A cell that reads the same in a later store looks the same there if everything in it does. -/
theorem alike_of_parts (hs : s.WellFormed) (hst : s.Outlives t) (hv : s.Has v) (hagree : s.Agree t v)
    (below : ∀ p ∈ s.parts v, Alike s t p p) : Alike s t v v := by
  cases v with
  | list r => exact .sequence rfl (congrArg some hagree) (List.forall₂_same.mpr below)
  | tuple r => exact .sequence rfl (congrArg some hagree) (List.forall₂_same.mpr below)
  | dict r =>
    refine .dict (by rw [show t.dict r = s.dict r from hagree]) ?_
    rw [show t.dict r = s.dict r from hagree]
    exact List.forall₂_same.mpr below
  | node r =>
    have hnode : t.node r = s.node r := hagree
    have htype : (t.typeOf r).id = (s.typeOf r).id := by
      rw [typeOf, hnode]
      exact (hst.akin _ (hs.has_type hv)).id
    refine .node (by rw [hnode]) htype (by rw [hnode]) ?_ ?_ (fun role => by rw [hnode]) ?_
    · rw [hnode]
      exact below _ (s.node r).value_mem_parts
    · rw [hnode]
      exact below _ (s.node r).default_mem_parts
    · rw [hnode]
      exact fun role => List.forall₂_same.mpr fun q hq =>
        below _ ((s.node r).entry_mem_parts role hq)
  | _ => exact .scalar rfl

/-- What is reached only through cells that read the same in a later store looks the same there. -/
theorem alike_of_agree {n : ℕ} (hs : s.WellFormed) (hst : s.Outlives t)
    (hend : EndsWithin s.parts n v) (hv : s.Has v) (h : ∀ u, Reaches s.parts v u → s.Agree t u) :
    Alike s t v v := by
  induction n generalizing v with
  | zero => exact hend.elim
  | succ n ih =>
    exact alike_of_parts hs hst hv (h v (.refl v)) fun p hp =>
      ih (hend p hp) (hs.has_parts hv p hp) fun u hu => h u (hu.of_below hp)

namespace CopyOf

variable {w : Value}

theorem asNode?_eq {a : NodeRef} (h : CopyOf s t (.node a) w) : ∃ b, w = .node b := by
  cases h with
  | scalar h => cases h
  | node => exact ⟨_, rfl⟩

theorem has (he : s.Extends t) (hv : s.Has v) (h : CopyOf s t v w) : t.Has w := by
  cases h with
  | scalar => exact he.has hv
  | tuple => exact he.has hv
  | list hnew => exact hnew.2
  | dict hnew => exact hnew.2
  | node hnew => exact hnew.2

theorem has_values {l l' : List Value} (hs : ∀ p ∈ l, s.Has p) (he : s.Extends t)
    (h : List.Forall₂ (CopyOf s t) l l') : ∀ p ∈ l', t.Has p := fun p hp =>
  have ⟨o, ho, hcopy⟩ := exists_partner h.flip p hp
  hcopy.has he (hs o ho)

/-- A copy looks like what it is a copy of in every later store that holds the new cells as they
were made, as long as the tuples look the same there, which are shared. -/
theorem alike {n : ℕ} (hs : s.WellFormed) (hsu : s.Outlives u) (hkeep : s.Retains t u)
    (hend : EndsWithin s.parts n v) (hv : s.Has v)
    (htuples : ∀ q, Reaches s.parts v (.tuple q) → Alike s u (.tuple q) (.tuple q))
    (h : CopyOf s t v w) : Alike s u v w := by
  induction n generalizing v w with
  | zero => exact hend.elim
  | succ n ih =>
    have below : ∀ p ∈ s.parts v, ∀ q, CopyOf s t p q → Alike s u p q := fun p hp q =>
      ih (hend p hp) (hs.has_parts hv p hp) fun r hr => htuples r (hr.of_below hp)
    cases h with
    | scalar h => exact .scalar h
    | tuple r => exact htuples r (.refl _)
    | list hnew h =>
      exact .sequence rfl (congrArg some (hkeep _ hnew))
        (forall₂_imp_mem h fun p hp q _ => below p hp q)
    | @dict a b hnew hkeys h =>
      have hb : u.dict b = t.dict b := hkeep _ hnew
      refine .dict (by rw [hb, hkeys]) ?_
      rw [hb]
      exact forall₂_imp_mem h fun p hp q _ => below p hp q
    | @node a b hnew hid htype hkind hvalue hdefault hkeys h =>
      have hb : u.node b = t.node b := hkeep _ hnew
      have htypeOf : (u.typeOf b).id = (s.typeOf a).id := by
        rw [typeOf, hb, htype]
        exact (hsu.akin _ (hs.has_type hv)).id
      refine .node (by rw [hb, hid]) htypeOf (by rw [hb, hkind]) ?_ ?_ (fun role => ?_) fun role => ?_
      · rw [hb]
        exact below _ (s.node a).value_mem_parts _ hvalue
      · rw [hb]
        exact below _ (s.node a).default_mem_parts _ hdefault
      · rw [hb, hkeys role]
      · rw [hb]
        exact forall₂_imp_mem (h role) fun p hp q _ =>
          below _ ((s.node a).entry_mem_parts role hp) _

/-- Tuples never change, so they look the same for good when they hold scalars and tuples only. -/
theorem alike_of_plain {n : ℕ} (hs : s.WellFormed) (hsu : s.Outlives u) (hkeep : s.Retains t u)
    (hend : EndsWithin s.parts n v) (hv : s.Has v) (hplain : s.PlainTuples v)
    (h : CopyOf s t v w) : Alike s u v w := by
  refine h.alike hs hsu hkeep hend hv fun q hq => ?_
  refine alike_of_agree hs hsu (hend.reaches hq) (hs.has_reached hv hq) fun x hx => ?_
  rcases hplain.of_tuple hq hx with hscalar | ⟨p, rfl⟩
  · cases x <;> trivial
  · exact hsu.tuple p (hs.has_reached hv (hq.trans hx))

/-- Directly below a copy there are copies, one by one, unless it is a tuple. -/
theorem parts (h : CopyOf s t v w) (htuple : ∀ q, v ≠ .tuple q) :
    List.Forall₂ (CopyOf s t) (s.parts v) (t.parts w) := by
  cases h with
  | scalar h =>
    rw [parts_of_cell?_eq_none s h, parts_of_cell?_eq_none t h]
    exact .nil
  | tuple q => exact absurd rfl (htuple q)
  | list _ h => exact h
  | dict _ _ h => exact h
  | @node a b _ _ _ _ hvalue hdefault _ h =>
    refine .cons hvalue (.cons hdefault ?_)
    refine List.forall₂_map_left_iff.mpr (List.forall₂_map_right_iff.mpr ?_)
    exact List.rel_append (List.rel_append (h .metadata) (h .constraints)) (h .children)

theorem part (h : CopyOf s t v w) {p : Value} (hp : p ∈ t.parts w) :
    (∃ q, v = .tuple q ∧ w = .tuple q) ∨ ∃ o ∈ s.parts v, CopyOf s t o p := by
  by_cases htuple : ∃ q, v = .tuple q
  · obtain ⟨q, rfl⟩ := htuple
    cases h with
    | scalar h => cases h
    | tuple => exact .inl ⟨q, rfl, rfl⟩
  · exact .inr (exists_partner (h.parts fun q e => htuple ⟨q, e⟩).flip p hp)

/-- At each place of a copy there is a copy, as long as no tuple comes in between. -/
theorem place (h : CopyOf s t v w) (htuples : ∀ q, ¬ Reaches s.parts v (.tuple q)) (p : List ℕ) :
    Option.Rel (CopyOf s t) (s.place p v) (t.place p w) := by
  induction p generalizing v w with
  | nil => exact .some h
  | cons i rest ih =>
    have hparts := h.parts fun q e => htuples q (e ▸ .refl v)
    have hlength := hparts.length_eq
    rw [Store.place, Store.place]
    by_cases hi : i < (s.parts v).length
    · have hi' := hlength ▸ hi
      rw [List.getElem?_eq_getElem hi, List.getElem?_eq_getElem hi']
      exact ih (hparts.get hi hi') fun q hq => htuples q (hq.of_below (List.getElem_mem hi))
    · rw [List.getElem?_eq_none (Nat.not_lt.mp hi),
        List.getElem?_eq_none (hlength ▸ Nat.not_lt.mp hi)]
      exact .none

/-- A copy is no deeper than what it is a copy of. -/
theorem endsWithin {n : ℕ} (hs : s.WellFormed) (he : s.Extends t) (hv : s.Has v)
    (hend : EndsWithin s.parts n v) (h : CopyOf s t v w) : EndsWithin t.parts n w := by
  induction n generalizing v w with
  | zero => exact hend.elim
  | succ n ih =>
    intro p hp
    rcases h.part hp with ⟨q, rfl, rfl⟩ | ⟨o, ho, hcopy⟩
    · exact hs.endsWithin_of_extends he hv hend p hp
    · exact ih (hs.has_parts hv o ho) (hend o ho) hcopy

/-- All that is reached from a copy is a copy, or is reached from a tuple that is shared. -/
theorem reached (hs : s.WellFormed) (he : s.Extends t) (hv : s.Has v) (h : CopyOf s t v w)
    {u : Value} (hu : Reaches t.parts w u) :
    (∃ o, Reaches s.parts v o ∧ CopyOf s t o u) ∨
      ∃ q, Reaches s.parts v (.tuple q) ∧ Reaches s.parts (.tuple q) u := by
  refine hu.closed (P := fun u => (∃ o, Reaches s.parts v o ∧ CopyOf s t o u) ∨
    ∃ q, Reaches s.parts v (.tuple q) ∧ Reaches s.parts (.tuple q) u) (.inl ⟨v, .refl v, h⟩) ?_
  rintro x - (⟨o, ho, hcopy⟩ | ⟨q, hq, hx⟩) y hy
  · rcases hcopy.part hy with ⟨q, rfl, rfl⟩ | ⟨o', ho', hcopy'⟩
    · rw [he.parts (hs.has_reached hv ho)] at hy
      exact .inr ⟨q, ho, (Reaches.refl _).below hy⟩
    · exact .inl ⟨o', ho.below ho', hcopy'⟩
  · rw [he.parts (hs.has_reached hv (hq.trans hx))] at hy
    exact .inr ⟨q, hq, hx.below hy⟩

/-- What a copy has of the earlier store is scalars and what is reached from tuples. -/
theorem shared (hs : s.WellFormed) (he : s.Extends t) (hv : s.Has v) (h : CopyOf s t v w)
    {u : Value} (hu : Reaches t.parts w u) (hold : s.Has u) :
    u.cell? = none ∨ ∃ q, Reaches s.parts v (.tuple q) ∧ Reaches s.parts (.tuple q) u := by
  refine (h.reached hs he hv hu).elim ?_ .inr
  rintro ⟨o, ho, hcopy⟩
  cases hcopy with
  | scalar hscalar => exact .inl hscalar
  | tuple q => exact .inr ⟨q, ho, .refl _⟩
  | list hnew => exact absurd hold hnew.1
  | dict hnew => exact absurd hold hnew.1
  | node hnew => exact absurd hold hnew.1

end CopyOf

/-! ### Copying -/

/-- Whether a value is copied, to so many levels, with each new cell in one place. -/
def CopiesApart (s : Store) (n : ℕ) (v : Value) : Prop :=
  ∀ s₀, s.Extends s₀ → Builds s₀ (copyTo n v) fun t w =>
    CopyOf s t v w ∧ Apart s₀ (·.censusTo n w) t

/-- The copy of a map of nodes has the same names for copies. -/
theorem builds_entries {s₀ : Store} {n : ℕ} {m : Entries NodeRef}
    (h : ∀ r ∈ m.values, CopiesApart s n (.node r)) (h₀ : s.Extends s₀) :
    Builds s₀ (do
        let copies ← m.toList.mapM fun p => do
          return (p.1, (← copyTo n (.node p.2)).asNode?.getD p.2)
        return Entries.ofList copies) fun t m' =>
      (m'.keys = m.keys ∧
        List.Forall₂ (fun x y => CopyOf s t (.node x) (.node y)) m.values m'.values) ∧
      Apart s₀ (fun t => (m'.values.map Value.node).flatMap (t.censusTo n)) t := by
  refine .bind (.mapM_apart (T := fun t p q => q.1 = p.1 ∧ CopyOf s t (.node p.2) (.node q.2))
    (C := fun q t => t.censusTo n (.node q.2)) fun p hp s₁ h₁ => ?_)
    fun l s₁ _ hl => .pure fun t ht => ⟨Entries.partners_ofList (hl t ht).1, ?_⟩
  · refine .bind (h p.2 (List.mem_map_of_mem hp) s₁ (h₀.trans h₁)) fun w s₂ _ hw =>
      .pure fun t ht => ?_
    obtain ⟨b, rfl⟩ := (hw t ht).1.asNode?_eq
    exact ⟨⟨rfl, (hw t ht).1⟩, (hw t ht).2⟩
  · rw [Entries.values_ofList_of_partners (hl t ht).1, List.map_map]
    exact (hl t ht).2.congr fun t' _ => List.flatMap_map ..

/-- A node that is made of copies of what is in another is a copy of it. -/
theorem builds_copiedNode (hs : s.WellFormed) {r : NodeRef} (hr : s.Has (.node r)) {s₀ : Store}
    (h₀ : s.Extends s₀) {c : Content} {copy : Node}
    (hcopy : copy = { s.node r with
      value := c.value, default := c.default, metadata := c.metadata, constraints := c.constraints,
      children := c.children })
    (hvalue : ∀ t, s₀.Extends t → CopyOf s t (s.node r).value copy.value)
    (hdefault : ∀ t, s₀.Extends t → CopyOf s t (s.node r).default copy.default)
    (hmaps : ∀ t, s₀.Extends t → ∀ role,
      (copy.entries role).keys = ((s.node r).entries role).keys ∧
        List.Forall₂ (fun x y => CopyOf s t (.node x) (.node y))
          ((s.node r).entries role).values (copy.entries role).values) :
    Builds s₀ (Make.node (s.node r).id (s.node r).type c) fun t r' =>
      CopyOf s t (.node r) (.node r') ∧ s₀.Between t (.node r') ∧ t.node r' = copy := by
  have hparts := hs.has_parts hr
  have hhas : ∀ p ∈ copy.parts, s₀.Has p := by
    intro p hp
    rcases Node.mem_parts hp with rfl | rfl | ⟨role, q, hq, rfl⟩
    · exact (hvalue s₀ .refl).has h₀ (hparts _ (s.node r).value_mem_parts)
    · exact (hdefault s₀ .refl).has h₀ (hparts _ (s.node r).default_mem_parts)
    · obtain ⟨o, ho, h⟩ := exists_partner (hmaps s₀ .refl role).2.flip q hq
      exact h.has h₀ (hparts _ ((s.node r).entry_mem_parts role ho))
  have hnode : copy = ⟨(s.node r).id, (s.node r).type, .ofTypeId (s₀.node (s.node r).type).id,
      c.value, c.default, c.metadata, c.constraints, c.children⟩ := by
    rw [h₀.node (hs.has_type hr), ← typeOf, ← hs.kind_eq r hr, hcopy]
  refine (Builds.node hnode (h₀.has (hs.has_type hr)) hhas).mono ?_
  rintro t r' ht ⟨hnew, hr'⟩
  have hown : copy.id = (s.node r).id ∧ copy.type = (s.node r).type ∧
      copy.kind = (s.node r).kind := by
    rw [hcopy]
    exact ⟨rfl, rfl, rfl⟩
  rw [← hr'] at hown hvalue hdefault hmaps
  refine ⟨?_, hnew, hr'⟩
  exact .node ⟨fun h => hnew.1 (h₀.has h), hnew.2⟩ hown.1 hown.2.1 hown.2.2 (hvalue t ht)
    (hdefault t ht) (fun role => (hmaps t ht role).1) fun role => (hmaps t ht role).2

namespace CopiesApart

variable {n : ℕ}

theorem list (hs : s.WellFormed) {r : ListRef} (hr : s.Has (.list r))
    (h : ∀ p ∈ s.list r, CopiesApart s n p) : CopiesApart s (n + 1) (.list r) := by
  intro s₀ h₀
  refine .get_bind fun s₁ e₁ => ?_
  have h₁ := h₀.trans e₁
  rw [show s₁.list r = s.list r from h₁.agree hr]
  refine .bind (.mapM_apart fun p hp s₂ h₂ => h p hp s₂ (h₁.trans h₂)) fun vs s₂ e₂ hvs => ?_
  have h₂ := h₁.trans e₂
  refine (Builds.newList (CopyOf.has_values (hs.has_parts hr) h₂ (hvs s₂ .refl).1)).mono ?_
  rintro t _ ht ⟨r', rfl, hnew, hr'⟩
  refine ⟨.list ⟨fun h => hnew.1 (h₂.has h), hnew.2⟩ (hr' ▸ (hvs t ht).1), ?_⟩
  refine ((Apart.cons e₂ (fun t ht => (hvs t ht).2) hnew ht).congr fun t' ht' => ?_).earlier e₁
  rw [← hr', ← show t'.list r' = t.list r' from ht'.agree hnew.2]
  rfl

theorem dict (hs : s.WellFormed) {r : DictRef} (hr : s.Has (.dict r))
    (h : ∀ p ∈ (s.dict r).values, CopiesApart s n p) : CopiesApart s (n + 1) (.dict r) := by
  intro s₀ h₀
  refine .get_bind fun s₁ e₁ => ?_
  have h₁ := h₀.trans e₁
  rw [show s₁.dict r = s.dict r from h₁.agree hr]
  refine .bind (.mapM_apart (T := fun t p q => q.1 = p.1 ∧ CopyOf s t p.2 q.2)
    (C := fun q t => t.censusTo n q.2) fun p hp s₂ h₂ => ?_) fun l s₂ e₂ hl => ?_
  · exact .bind (h p.2 (List.mem_map_of_mem hp) s₂ (h₁.trans h₂)) fun w s₃ _ hw =>
      .pure fun t ht => ⟨⟨rfl, (hw t ht).1⟩, (hw t ht).2⟩
  have h₂ := h₁.trans e₂
  have hd := fun t ht => Entries.partners_ofList (hl t ht).1
  have hvalues := Entries.values_ofList_of_partners (hl s₂ .refl).1
  refine (Builds.newDict (CopyOf.has_values (hs.has_parts hr) h₂ (hd s₂ .refl).2)).mono ?_
  rintro t _ ht ⟨r', rfl, hnew, hr'⟩
  refine ⟨.dict ⟨fun h => hnew.1 (h₂.has h), hnew.2⟩ (by rw [hr', (hd t ht).1])
    (by rw [hr']; exact (hd t ht).2), ?_⟩
  refine ((Apart.cons e₂ (fun t ht => (hl t ht).2) hnew ht).congr fun t' ht' => ?_).earlier e₁
  rw [censusTo_succ (v := .dict r') _ _ rfl (by rintro _ ⟨⟩), parts,
    show t'.dict r' = t.dict r' from ht'.agree hnew.2, hr', hvalues, List.flatMap_map]

theorem node (hs : s.WellFormed) {r : NodeRef} (hr : s.Has (.node r))
    (h : ∀ p ∈ s.parts (.node r), CopiesApart s n p) : CopiesApart s (n + 1) (.node r) := by
  intro s₀ h₀
  refine .get_bind fun s₁ e₁ => ?_
  have h₁ := h₀.trans e₁
  rw [show s₁.node r = s.node r from h₁.agree hr]
  have hentries := fun role {s₁} (h₁ : s.Extends s₁) => builds_entries (n := n)
    (m := (s.node r).entries role)
    (fun q hq => h (.node q) ((s.node r).entry_mem_parts role hq)) h₁
  refine .bind (h _ (s.node r).value_mem_parts s₁ h₁) fun value s₂ e₂ hva =>
    .bind (h _ (s.node r).default_mem_parts s₂ (h₁.trans e₂)) fun default s₃ e₃ hde => ?_
  have h₃ := (h₁.trans e₂).trans e₃
  refine .bind (hentries .metadata h₃) fun metadata s₄ e₄ hme =>
    .bind (hentries .constraints (h₃.trans e₄)) fun constraints s₅ e₅ hco =>
      .bind (hentries .children ((h₃.trans e₄).trans e₅)) fun children s₆ e₆ hch => ?_
  -- what was made first is apart from what was made next, and so is all that was made
  have hmaps := fun t ht => Apart.append e₄ (fun t ht => (hme t ht).2)
    (.append e₅ (fun t ht => (hco t ht).2) (hch t ht).2 (e₆.trans ht))
    ((e₅.trans e₆).trans ht)
  have e₃₆ := (e₄.trans e₅).trans e₆
  have h₆ := h₃.trans e₃₆
  have hall := fun t ht => Apart.append e₂ (fun t ht => (hva t ht).2)
    (.append e₃ (fun t ht => (hde t ht).2) (hmaps t ht) (e₃₆.trans ht))
    ((e₃.trans e₃₆).trans ht)
  replace hva := fun t ht => (hva t ((e₃.trans e₃₆).trans ht)).1
  replace hde := fun t ht => (hde t (e₃₆.trans ht)).1
  replace hme := fun t ht => (hme t ((e₅.trans e₆).trans ht)).1
  replace hco := fun t ht => (hco t (e₆.trans ht)).1
  replace hch := fun t ht => (hch t ht).1
  refine .bind (builds_copiedNode hs hr h₆ rfl hva hde fun t ht role => ?_) fun r' s₇ e₇ hr' =>
    .pure fun t ht => ⟨(hr' t ht).1, ?_⟩
  · cases role
    exacts [hme t ht, hco t ht, hch t ht]
  obtain ⟨hcopy, hnew, hnode⟩ := hr' t ht
  refine ((Apart.cons ((e₂.trans e₃).trans e₃₆) hall hnew (e₇.trans ht)).congr
    fun t' ht' => ?_).earlier e₁
  rw [censusTo_succ (v := .node r') _ _ rfl (by rintro _ ⟨⟩), parts, ht'.node hnew.2, hnode]
  simp only [Node.parts, List.flatMap_cons, List.flatMap_append, List.map_append,
    List.append_assoc]

end CopiesApart

/-- A value without cycles can be copied, with each new cell in one place. -/
theorem builds_copy_apart (hs : s.WellFormed) {n : ℕ} (hend : EndsWithin s.parts n v)
    (hv : s.Has v) : CopiesApart s n v := by
  induction n generalizing v with
  | zero => exact hend.elim
  | succ n ih =>
    have below : ∀ p ∈ s.parts v, CopiesApart s n p := fun p hp =>
      ih (hend p hp) (hs.has_parts hv p hp)
    cases v with
    | list r => exact .list hs hv below
    | dict r => exact .dict hs hv below
    | node r => exact .node hs hv below
    | tuple r => exact fun _ _ => .pure fun t _ => ⟨.tuple r, .nil⟩
    | _ => exact fun _ _ => .pure fun t _ => ⟨.scalar rfl, .nil⟩

/-- A value without cycles can be copied. -/
theorem builds_copy (hs : s.WellFormed) {n : ℕ} (hend : EndsWithin s.parts n v) (hv : s.Has v)
    {s₀ : Store} (h₀ : s.Extends s₀) : Builds s₀ (copyTo n v) fun t w => CopyOf s t v w :=
  (builds_copy_apart hs hend hv s₀ h₀).mono fun _ _ _ h => h.1

theorem builds_copyValue (hs : s.WellFormed) (hend : EndsWithin s.parts s.depthBound v)
    (hv : s.Has v) {s₀ : Store} (h₀ : s.Extends s₀) :
    Builds s₀ (copyValue v) fun t w => CopyOf s t v w :=
  .get_bind fun _ h₁ => builds_copy hs
    (hend.mono (Nat.succ_le_succ (h₀.trans h₁).outlives.size_le)) hv (h₀.trans h₁)

/-- A node without cycles can be copied, and each cell of the copy is counted once. -/
theorem copyNode_apart (hs : s.WellFormed) {r : NodeRef} (hr : s.Has (.node r))
    (hacyclic : Acyclic s.parts (.node r)) :
    ∃ c t, copyNode r s = .ok c t ∧ s.Extends t ∧ t.WellFormed ∧
      CopyOf s t (.node r) (.node c) ∧ (t.censusTo s.depthBound (.node c)).Nodup := by
  have hend := hs.endsWithin hr hacyclic
  obtain ⟨w, t, hw, he, ht, hcopy⟩ := builds_copy_apart hs hend hr s .refl s .refl hs
  obtain ⟨hcopy, hapart⟩ := hcopy t .refl
  obtain ⟨c, rfl⟩ := hcopy.asNode?_eq
  have hrun : copyValue (.node r) s = .ok (.node c) t := hw
  exact ⟨c, t, bind_of_ok hrun _, he, ht, hcopy, hapart.nodup⟩

theorem copyNode_spec (hs : s.WellFormed) {r : NodeRef} (hr : s.Has (.node r))
    (hacyclic : Acyclic s.parts (.node r)) :
    ∃ c t, copyNode r s = .ok c t ∧ s.Extends t ∧ t.WellFormed ∧
      CopyOf s t (.node r) (.node c) :=
  have ⟨c, t, hrun, he, ht, hcopy, _⟩ := copyNode_apart hs hr hacyclic
  ⟨c, t, hrun, he, ht, hcopy⟩

/-- What looks like a value without cycles has the form of that value. -/
theorem Alike.form_eq_ok {ν : Type} {w : Value} {d : Data ν} (h : Alike s t v w) (hst : s.Outlives t)
    (hend : EndsWithin s.parts s.depthBound v) (hd : FormOf s v d) : t.form w = .ok d := by
  rw [Store.form, h.formTo_eq]
  exact hd.formTo_eq (hend.mono (Nat.succ_le_succ hst.size_le))

/-- A node and its copy have the same serialized form, which is the one that the node had. -/
theorem CopyOf.nodeForm_eq {ν : Type} {r c : NodeRef} (hs : s.WellFormed) (he : s.Extends t)
    (hr : s.Has (.node r)) (hacyclic : Acyclic s.parts (.node r))
    (h : CopyOf s t (.node r) (.node c)) :
    ∃ d : Data ν, s.nodeForm r = .ok d ∧ t.nodeForm r = .ok d ∧ t.nodeForm c = .ok d := by
  have hend := hs.endsWithin hr hacyclic
  have hsame : ∀ u, Reaches s.parts (.node r) u → Alike s t u u := fun u hu =>
    alike_of_agree hs he.outlives (hend.reaches hu) (hs.has_reached hr hu) fun _ hx =>
      he.agree (hs.has_reached hr (hu.trans hx))
  have hlike : Alike s t (.node r) (.node c) :=
    h.alike hs he.outlives (fun v _ => .refl v) hend hr fun q hq => hsame _ hq
  obtain ⟨d, hd⟩ := exists_form (ν := ν) hend
  exact ⟨d, hd.formTo_eq hend, (hsame _ (.refl _)).form_eq_ok he.outlives hend hd,
    hlike.form_eq_ok he.outlives hend hd⟩

/-- Whether something of stores stays when a list, a dictionary or a node is added. -/
structure Store.Additive (I : Store → Prop) : Prop where
  list : ∀ t l, I t → I (t.allocList l).2
  dict : ∀ t d, I t → I (t.allocDict d).2
  node : ∀ t n, I t → I (t.allocNode n).2

/-- Copying does nothing but add cells, also when it fails. -/
theorem Store.Additive.keeps_copy {I : Store → Prop} (h : Additive I) (n : ℕ) (v : Value) :
    Keeps I (copyTo n v) fun _ => True := by
  induction n generalizing v with
  | zero => exact .throw _
  | succ n ih =>
    cases v with
    | list r =>
      refine .bind .get fun _ _ => .bind (.mapM fun p _ => ih p) fun vs _ => ?_
      exact .modifyGet fun x hx => ⟨h.list x vs hx, trivial⟩
    | dict r =>
      refine .bind .get fun _ _ => .bind (.mapM (Q := fun _ => True) fun p _ => ?_) fun l _ => ?_
      · exact .bind (ih p.2) fun _ _ => .pure trivial
      · exact .modifyGet fun x hx => ⟨h.dict x (.ofList l) hx, trivial⟩
    | node r =>
      refine .bind .get fun t _ => ?_
      have hentries : ∀ role, Keeps I (do
          let copies ← ((t.node r).entries role).toList.mapM fun p => do
            return (p.1, (← copyTo n (.node p.2)).asNode?.getD p.2)
          return Entries.ofList copies : StoreM (Entries NodeRef)) fun _ => True := by
        intro role
        refine .bind (.mapM (Q := fun _ => True) fun p _ => ?_) fun _ _ => .pure trivial
        exact .bind (ih _) fun _ _ => .pure trivial
      refine .bind (ih _) fun value _ => .bind (ih _) fun default _ => ?_
      refine .bind (hentries .metadata) fun metadata _ => ?_
      refine .bind (hentries .constraints) fun constraints _ => ?_
      refine .bind (hentries .children) fun children _ => ?_
      refine .bind (P := fun _ => True) (.modifyGet fun x hx => ?_) fun _ _ => .pure trivial
      exact ⟨h.node x _ hx, trivial⟩
    | _ => exact .pure trivial

theorem Store.Additive.keeps_copyValue {I : Store → Prop} (h : Additive I) (v : Value) :
    Keeps I (copyValue v) fun _ => True := .bind .get fun _ _ => h.keeps_copy _ v

theorem Store.Additive.keeps_copyNode {I : Store → Prop} (h : Additive I) (r : NodeRef) :
    Keeps I (copyNode r) fun _ => True := .bind (h.keeps_copyValue _) fun _ _ => .pure trivial

theorem additive_extends (s : Store) : Store.Additive s.Extends where
  list _ l hx := hx.trans (extends_allocList l)
  dict _ d hx := hx.trans (extends_allocDict d)
  node _ n hx := hx.trans (extends_allocNode n)

/-- Copying adds cells and changes none, also when it fails. -/
theorem keeps_extends_copyValue (v : Value) :
    Keeps (s.Extends ·) (copyValue v) fun _ => True := (additive_extends s).keeps_copyValue v

/-! ### Copying beside sealed cells -/

section Sealed

variable {P : Value → Prop} {s₁ : Store}

theorem keeps_newList {l : List Value} (hl : ∀ p ∈ l, ¬ P p) :
    Keeps (Sealed P s₁) (.update (·.newList l) : StoreM Value) fun w => ¬ P w :=
  .modifyGet fun _ hx => hx.newList hl

theorem keeps_newTuple {l : List Value} (hl : ∀ p ∈ l, ¬ P p) :
    Keeps (Sealed P s₁) (.update (·.newTuple l) : StoreM Value) fun w => ¬ P w :=
  .modifyGet fun _ hx => hx.newTuple hl

theorem keeps_newDict {d : Entries Value} (hd : ∀ p ∈ d.values, ¬ P p) :
    Keeps (Sealed P s₁) (.update (·.newDict d) : StoreM Value) fun w => ¬ P w :=
  .modifyGet fun _ hx => hx.newDict hd

theorem keeps_node {id : String} {type : NodeRef} {c : Content} (hvalue : ¬ P c.value)
    (hdefault : ¬ P c.default)
    (hmaps : ∀ r ∈ c.metadata.values ++ c.constraints.values ++ c.children.values, ¬ P (.node r)) :
    Keeps (Sealed P s₁) (Make.node id type c) fun r => ¬ P (.node r) := by
  refine .modifyGet fun t ht => ht.allocNode fun p hp => ?_
  simp only [Node.parts, List.mem_cons, List.mem_map] at hp
  rcases hp with rfl | rfl | ⟨r, hr, rfl⟩
  · exact hvalue
  · exact hdefault
  · exact hmaps r hr

/-- Copying leaves sealed cells sealed, and the copy of a value outside is outside. -/
theorem keeps_copy (n : ℕ) (hv : ¬ P v) :
    Keeps (Sealed P s₁) (copyTo n v) fun w => ¬ P w := by
  induction n generalizing v with
  | zero => exact .throw _
  | succ n ih =>
    cases v with
    | list r =>
      refine .bind .get fun t ht => .bind (.mapM fun p hp => ih ?_) fun vs hvs => keeps_newList hvs
      exact ht.apart _ hv p hp
    | dict r =>
      refine .bind .get fun t ht => .bind (P := fun l => ∀ p ∈ l, ¬ P p.2)
        (.mapM (Q := fun p : String × Value => ¬ P p.2) fun p hp =>
          .bind (ih ?_) fun w hw => .pure hw)
        fun l hl => keeps_newDict ?_
      · exact ht.apart _ hv p.2 (List.mem_map_of_mem hp)
      · intro p hp
        obtain ⟨q, hq, rfl⟩ := List.mem_map.mp (Entries.mem_values_ofList hp)
        exact hl q hq
    | node r =>
      refine .bind .get fun t ht => ?_
      have hparts : ∀ p ∈ (t.node r).parts, ¬ P p := ht.apart _ hv
      have hentries : ∀ role, Keeps (Sealed P s₁) (do
          let copies ← ((t.node r).entries role).toList.mapM fun p => do
            return (p.1, (← copyTo n (.node p.2)).asNode?.getD p.2)
          return Entries.ofList copies : StoreM (Entries NodeRef))
          fun m => ∀ q ∈ m.values, ¬ P (.node q) := by
        intro role
        refine .bind (P := fun l => ∀ p ∈ l, ¬ P (.node p.2))
          (.mapM (Q := fun p : String × NodeRef => ¬ P (.node p.2)) fun p hp => ?_)
          fun l hl => .pure fun q hq => ?_
        · have hp' := hparts _ ((t.node r).entry_mem_parts role (List.mem_map_of_mem hp))
          refine .bind (ih hp') fun w hw => .pure ?_
          cases w <;> first | exact hw | exact hp'
        · obtain ⟨p, hp, rfl⟩ := List.mem_map.mp (Entries.mem_values_ofList hq)
          exact hl p hp
      refine .bind (ih (hparts _ (t.node r).value_mem_parts)) fun value hvalue => ?_
      refine .bind (ih (hparts _ (t.node r).default_mem_parts)) fun default hdefault => ?_
      refine .bind (hentries .metadata) fun metadata hme => ?_
      refine .bind (hentries .constraints) fun constraints hco => ?_
      refine .bind (hentries .children) fun children hch => ?_
      refine .bind (keeps_node hvalue hdefault ?_) fun r' hr' => .pure hr'
      intro q hq
      rcases List.mem_append.mp hq with hq | hq
      · rcases List.mem_append.mp hq with hq | hq
        exacts [hme q hq, hco q hq]
      · exact hch q hq
    | _ => exact .pure hv

theorem keeps_copyValue (hv : ¬ P v) :
    Keeps (Sealed P s₁) (copyValue v) fun w => ¬ P w :=
  .bind .get fun _ _ => keeps_copy _ hv

theorem keeps_copyNode {r : NodeRef} (hr : ¬ P (.node r)) :
    Keeps (Sealed P s₁) (copyNode r) fun q => ¬ P (.node q) :=
  .bind (keeps_copyValue hr) fun w hw => .pure <| by cases w <;> first | exact hw | exact hr

end Sealed

end LiveTree
