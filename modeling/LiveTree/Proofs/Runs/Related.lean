import LiveTree.Eval.Arguments
import LiveTree.Proofs.Form.Alike

/-! Maps and nodes that go together: maps with the same names in the same order and related values,
nodes of one id and kind with related contents under the same names. -/

namespace LiveTree

variable {α β γ δ : Type}

/-- Whether two maps have the same names in the same order, with values that are related. -/
structure Entries.Related (R : α → β → Prop) (m : Entries α) (m' : Entries β) : Prop where
  keys : m'.keys = m.keys
  values : List.Forall₂ R m.values m'.values

namespace Entries.Related

variable {R : α → β → Prop} {m : Entries α} {m' : Entries β} {a : α} {b : β}
  {l : List (String × α)} {l' : List (String × β)}

theorem pairs (h : m.Related R m') :
    List.Forall₂ (fun p q => q.1 = p.1 ∧ R p.2 q.2) m.toList m'.toList :=
  forall₂_pairs.mpr ⟨h.keys, h.values⟩

theorem of_pairs (h : List.Forall₂ (fun p q => q.1 = p.1 ∧ R p.2 q.2) m.toList m'.toList) :
    m.Related R m' := ⟨(forall₂_pairs.mp h).1, (forall₂_pairs.mp h).2⟩

theorem imp {S : α → β → Prop} (h : m.Related R m') (hRS : ∀ a b, R a b → S a b) :
    m.Related S m' := ⟨h.keys, h.values.imp hRS⟩

/-- A map is related to itself by what relates each of its values to itself. -/
theorem same {R : α → α → Prop} (h : ∀ a ∈ m.values, R a a) : m.Related R m :=
  ⟨rfl, List.forall₂_same.mpr h⟩

theorem map {f : α → γ} {g : β → δ} {S : γ → δ → Prop} (h : m.Related (fun a b => S (f a) (g b)) m') :
    (m.map f).Related S (m'.map g) where
  keys := by rw [keys_map, keys_map, h.keys]
  values := by
    rw [values_map, values_map]
    exact List.forall₂_map_left_iff.mpr (List.forall₂_map_right_iff.mpr h.values)

theorem isEmpty_eq (h : m.Related R m') : m'.isEmpty = m.isEmpty := isEmpty_eq_of_keys h.keys

theorem size_eq (h : m.Related R m') : m'.size = m.size := h.pairs.length_eq.symm

theorem empty : (∅ : Entries α).Related R ∅ := ⟨rfl, .nil⟩

theorem insert (h : m.Related R m') (k : String) (hab : R a b) :
    (m.insert k a).Related R (m'.insert k b) := by
  have hput : ∀ {l : List (String × α)} {l' : List (String × β)},
      List.Forall₂ (fun p q => q.1 = p.1 ∧ R p.2 q.2) l l' →
      List.Forall₂ (fun p q => q.1 = p.1 ∧ R p.2 q.2) (Entries.put k a l) (Entries.put k b l') := by
    intro l l' hl
    induction hl with
    | nil => exact .cons ⟨rfl, hab⟩ .nil
    | @cons p q rest rest' hpq hrest ih =>
      obtain ⟨k₁, a₁⟩ := p
      obtain ⟨k₂, b₂⟩ := q
      obtain ⟨rfl, hpq⟩ := hpq
      by_cases e : k₂ = k
      · simp only [Entries.put, if_pos e]
        exact .cons ⟨rfl, hab⟩ hrest
      · simp only [Entries.put, if_neg e]
        exact .cons ⟨rfl, hpq⟩ ih
  exact .of_pairs (hput h.pairs)

theorem insertAll (h : m.Related R m')
    (hl : List.Forall₂ (fun p q => q.1 = p.1 ∧ R p.2 q.2) l l') :
    (m.insertAll l).Related R (m'.insertAll l') := by
  induction hl generalizing m m' with
  | nil => exact h
  | @cons p q rest rest' hpq _ ih =>
    obtain ⟨k₁, a₁⟩ := p
    obtain ⟨k₂, b₂⟩ := q
    obtain ⟨rfl, hpq⟩ := hpq
    exact ih (h.insert k₂ hpq)

theorem ofList (hl : List.Forall₂ (fun p q => q.1 = p.1 ∧ R p.2 q.2) l l') :
    (Entries.ofList l).Related R (.ofList l') := Related.empty.insertAll hl

theorem get? (h : m.Related R m') (k : String) : Option.Rel R (m.get? k) (m'.get? k) := by
  have hfind : ∀ {l : List (String × α)} {l' : List (String × β)},
      List.Forall₂ (fun p q => q.1 = p.1 ∧ R p.2 q.2) l l' →
      Option.Rel R (Entries.find k l) (Entries.find k l') := by
    intro l l' hl
    induction hl with
    | nil => exact .none
    | @cons p q rest rest' hpq hrest ih =>
      obtain ⟨k₁, a₁⟩ := p
      obtain ⟨k₂, b₂⟩ := q
      obtain ⟨rfl, hpq⟩ := hpq
      by_cases e : k₂ = k
      · simp only [Entries.find, if_pos e]
        exact .some hpq
      · simp only [Entries.find, if_neg e]
        exact ih
  exact hfind h.pairs

end Entries.Related

/-- Whether two nodes have the same id, kind and names, with types and contents that are related. -/
structure Node.Related (R : Value → Value → Prop) (n n' : Node) : Prop where
  id : n'.id = n.id
  kind : n'.kind = n.kind
  type : R (.node n.type) (.node n'.type)
  value : R n.value n'.value
  default : R n.default n'.default
  entries (role : Role) :
    (n.entries role).Related (fun r q => R (.node r) (.node q)) (n'.entries role)

namespace Node.Related

variable {R S : Value → Value → Prop} {n n' : Node}

theorem imp (h : n.Related R n') (hRS : ∀ v w, R v w → S v w) : n.Related S n' where
  id := h.id
  kind := h.kind
  type := hRS _ _ h.type
  value := hRS _ _ h.value
  default := hRS _ _ h.default
  entries role := (h.entries role).imp fun _ _ => hRS _ _

/-- A node is related to itself by what relates its type and all that it holds to themselves. -/
theorem same (h : ∀ p ∈ Value.node n.type :: n.parts, R p p) : n.Related R n where
  id := rfl
  kind := rfl
  type := h _ List.mem_cons_self
  value := h _ (List.mem_cons_of_mem _ n.value_mem_parts)
  default := h _ (List.mem_cons_of_mem _ n.default_mem_parts)
  entries role := .same fun _ hq => h _ (List.mem_cons_of_mem _ (n.entry_mem_parts role hq))

theorem parts (h : n.Related R n') : List.Forall₂ R n.parts n'.parts := by
  refine .cons h.value (.cons h.default ?_)
  refine List.forall₂_map_left_iff.mpr (List.forall₂_map_right_iff.mpr ?_)
  exact List.rel_append (List.rel_append (h.entries .metadata).values
    (h.entries .constraints).values) (h.entries .children).values

/-- What has the same id, kind and names, and related parts, is related. -/
theorem of_parts (hid : n'.id = n.id) (hkind : n'.kind = n.kind)
    (htype : R (.node n.type) (.node n'.type))
    (hkeys : ∀ role, (n'.entries role).keys = (n.entries role).keys)
    (h : List.Forall₂ R n.parts n'.parts) : n.Related R n' := by
  have hlength : ∀ role, (n'.entries role).values.length = (n.entries role).values.length :=
    fun role => by simpa [Entries.keys, Entries.values] using congrArg List.length (hkeys role)
  obtain _ | ⟨hvalue, _ | ⟨hdefault, hmaps⟩⟩ := h
  have hmaps := List.forall₂_map_left_iff.mp (List.forall₂_map_right_iff.mp hmaps)
  have hsplit : ∀ {l₁ l₂ l₁' l₂' : List NodeRef}, l₁'.length = l₁.length →
      List.Forall₂ (fun r q => R (.node r) (.node q)) (l₁ ++ l₂) (l₁' ++ l₂') →
      List.Forall₂ (fun r q => R (.node r) (.node q)) l₁ l₁' ∧
        List.Forall₂ (fun r q => R (.node r) (.node q)) l₂ l₂' := by
    intro l₁ l₂ l₁' l₂' hl h
    have htake := List.forall₂_take_append _ _ _ h
    have hdrop := List.forall₂_drop_append _ _ _ h
    rw [hl] at htake hdrop
    rw [List.take_left] at htake
    rw [List.drop_left] at hdrop
    exact ⟨htake, hdrop⟩
  obtain ⟨hfirst, hchildren⟩ := hsplit (by
    rw [List.length_append, List.length_append]
    exact congrArg₂ (· + ·) (hlength .metadata) (hlength .constraints)) hmaps
  obtain ⟨hmetadata, hconstraints⟩ := hsplit (hlength .metadata) hfirst
  refine ⟨hid, hkind, htype, hvalue, hdefault, fun role => ⟨hkeys role, ?_⟩⟩
  cases role
  exacts [hmetadata, hconstraints, hchildren]

theorem arguments (h : n.Related R n') (keys : List String) :
    List.Forall₂ (fun r q => R (.node r) (.node q)) (n.arguments keys) (n'.arguments keys) := by
  induction keys with
  | nil => exact .nil
  | cons key rest ih =>
    have hkey := (h.entries .children).get? key
    rw [Node.arguments, Node.arguments, List.filterMap_cons, List.filterMap_cons]
    change Option.Rel _ (n.children.get? key) (n'.children.get? key) at hkey
    generalize n.children.get? key = x at hkey
    generalize n'.children.get? key = y at hkey
    cases hkey with
    | none => exact ih
    | some hrq => exact .cons hrq ih

end Node.Related

end LiveTree
