import LiveTree.Proofs.Reads.Grounded

/-! A tree and its copy. If each node of a tree has one place in it, then what goes together is what
stands at the same place of the tree and of its copy; types are shared and go with themselves. Two
values of the tree are one cell if and only if those of the copy are, except for lists and
dictionaries that stand at several places: these have several copies. So reads can start from the tree
and from its copy alike. -/

namespace LiveTree

open Store

variable {s t : Store} {r c : NodeRef} {u v w : Value}

namespace Store

/-- Whether something is in the types of a tree: the type of a node in the tree refers to it. -/
def Typed (s : Store) (r : NodeRef) (u : Value) : Prop :=
  ∃ q, Reaches s.parts (.node r) (.node q) ∧ Reaches s.links (.node (s.node q).type) u

/-- Whether something in a tree stands elsewhere as well: at another place, or in the types. -/
def Shared (s : Store) (r : NodeRef) (u : Value) : Prop :=
  ∃ p, s.place p (.node r) = some u ∧ (s.Typed r u ∨ ∃ q ≠ p, s.place q (.node r) = some u)

/-- Whether what is below a node is a tree: nothing lies below itself, each node has one place and is
no type, and no value is a tuple. Lists and dictionaries may have several places as long as nothing in
them is a number that is unequal to itself, since numbers are not told apart by where they are. No
order of arguments has been remembered for the nodes yet. -/
structure IsTree (s : Store) (r : NodeRef) : Prop where
  grounded : s.Grounded (.node r)
  once (q : NodeRef) : ¬ s.Shared r (.node q)
  plain (a : TupleRef) : ¬ Reaches s.parts (.node r) (.tuple a)
  selfEqual {u v : Value} : s.Shared r u → u.cell?.isSome → Reaches s.parts u v → v.cell? = none →
    s.equal v v = .ok true
  unevaluated {q : NodeRef} : Reaches s.parts (.node r) (.node q) → s.argOrder q = none

/-- Values that go together in a tree and its copy. -/
inductive Copied (s t : Store) (r c : NodeRef) : Value → Value → Prop
  | scalar {v : Value} (h : v.cell? = none) : Copied s t r c v v
  | placed {p : List ℕ} {v w : Value} (hv : s.place p (.node r) = some v)
      (hw : t.place p (.node c) = some w) : Copied s t r c v w
  | typed {v : Value} (h : s.Typed r v) : Copied s t r c v v

theorem Typed.links (h : s.Typed r u) (hv : v ∈ s.links u) : s.Typed r v :=
  have ⟨q, hq, hu⟩ := h
  ⟨q, hq, hu.below hv⟩

theorem Typed.grounded (hs : s.WellFormed) (hr : s.Grounded (.node r)) (h : s.Typed r u) :
    s.Grounded u :=
  have ⟨_, hq, hu⟩ := h
  ((hr.below hs hq).links hs _ (by simp [Store.links])).reached hs hu

/-- What is shared is shared with all that is below it. -/
theorem Shared.reached (h : s.Shared r u) (hv : Reaches s.parts u v) : s.Shared r v := by
  obtain ⟨p, hp, helse⟩ := h
  obtain ⟨k, hk⟩ := exists_place hv
  refine ⟨p ++ k, (place_append hp).trans hk, ?_⟩
  rcases helse with ⟨q, hq, hu⟩ | ⟨q, hne, hq⟩
  · exact .inl ⟨q, hq, hv.closed hu fun _ _ hx _ hy => hx.below (parts_subset_links _ hy)⟩
  · exact .inr ⟨q ++ k, fun e => hne (List.append_cancel_right e), (place_append hq).trans hk⟩

/-- What is shared stays equal to itself. -/
theorem IsTree.inert (h : s.IsTree r) (hu : s.Shared r u) (hcell : u.cell?.isSome) : s.Inert u :=
  fun _ hv => ⟨fun q e => h.once q (e ▸ hu.reached hv), h.selfEqual hu hcell hv⟩

/-- What is counted once, has not been evaluated and has types elsewhere is a tree. -/
theorem isTree_of_census {n : ℕ} (hr : s.Grounded (.node r)) (hn : EndsWithin s.parts n (.node r))
    (hplain : ∀ a, ¬ Reaches s.parts (.node r) (.tuple a))
    (hnodup : (s.censusTo n (.node r)).Nodup)
    (htyped : ∀ u ∈ s.censusTo n (.node r), ¬ s.Typed r u)
    (horder : ∀ q, .node q ∈ s.censusTo n (.node r) → s.argOrder q = none) : s.IsTree r := by
  have hunshared : ∀ u, u.cell?.isSome → ¬ s.Shared r u := by
    rintro u hcell ⟨p, hp, hu | ⟨q, hne, hq⟩⟩
    · exact htyped u (mem_censusTo hn hplain hp hcell) hu
    · exact hne (place_injective hn hplain hnodup hq hp hcell)
  refine ⟨hr, fun q => hunshared _ rfl, hplain, fun hu hcell => absurd hu (hunshared _ hcell), ?_⟩
  intro q hq
  obtain ⟨p, hp⟩ := exists_place hq
  exact horder q (mem_censusTo hn hplain hp rfl)

end Store

/-- What there is after a tree has been copied. -/
structure Duplicated (s t : Store) (r c : NodeRef) : Prop where
  wellFormed : s.WellFormed
  wellFormed_later : t.WellFormed
  tree : s.IsTree r
  extend : s.Extends t
  copy : CopyOf s t (.node r) (.node c)
  nodup : (t.censusTo s.depthBound (.node c)).Nodup
  order (q : NodeRef) : t.argOrder q = s.argOrder q
  orders : s.argOrders.size = s.nodes.size
  orders_later : t.argOrders.size = t.nodes.size

/-- A tree can be copied. -/
theorem exists_duplicate (hs : s.WellFormed) (h : s.IsTree r)
    (horders : s.argOrders.size = s.nodes.size) :
    ∃ c t, copyNode r s = .ok c t ∧ Duplicated s t r c := by
  obtain ⟨c, t, hrun, he, ht, hcopy, hnodup⟩ :=
    copyNode_apart hs h.grounded.has (h.grounded.acyclic _ (.refl _))
  have horder : Additive fun t => ∀ q, t.argOrder q = s.argOrder q :=
    { list := fun _ _ ht => ht
      dict := fun _ _ ht => ht
      node := fun t n ht q => (t.argOrder_allocNode n q).trans (ht q) }
  have hsizes : Additive fun t => t.argOrders.size = t.nodes.size :=
    { list := fun _ _ ht => ht
      dict := fun _ _ ht => ht
      node := fun t n ht => by simp [allocNode, ht] }
  exact ⟨c, t, hrun,
    { wellFormed := hs
      wellFormed_later := ht
      tree := h
      extend := he
      copy := hcopy
      nodup := hnodup
      order := ((horder.keeps_copyNode r).ok (fun _ => rfl) hrun).1
      orders := horders
      orders_later := ((hsizes.keeps_copyNode r).ok horders hrun).1 }⟩

namespace Duplicated

variable (h : Duplicated s t r c)

include h

theorem copyAt {p : List ℕ} (hv : s.place p (.node r) = some v)
    (hw : t.place p (.node c) = some w) : CopyOf s t v w := by
  have hplace := h.copy.place h.tree.plain p
  rw [hv, hw] at hplace
  cases hplace with
  | some hcopy => exact hcopy

theorem not_tuple {p : List ℕ} (hv : s.place p (.node r) = some v) (a : TupleRef) : v ≠ .tuple a :=
  fun e => h.tree.plain a (e ▸ reaches_of_place hv)

/-- A cell of the copy is a new one. -/
theorem between {p : List ℕ} (hv : s.place p (.node r) = some v)
    (hw : t.place p (.node c) = some w) (hcell : w.cell?.isSome) : s.Between t w := by
  cases h.copyAt hv hw with
  | scalar hscalar =>
    rw [hscalar] at hcell
    cases hcell
  | tuple a => exact absurd rfl (h.not_tuple hv a)
  | list hnew => exact hnew
  | dict hnew => exact hnew
  | node hnew => exact hnew

/-- No cell stands at two places of the copy. -/
theorem place_eq {p q : List ℕ} (hp : t.place p (.node c) = some w)
    (hq : t.place q (.node c) = some w) (hcell : w.cell?.isSome) : p = q := by
  have hr := h.tree.grounded
  refine place_injective (h.copy.endsWithin h.wellFormed h.extend hr.has (hr.ends h.wellFormed))
    (fun a ha => ?_) h.nodup hp hq hcell
  rcases h.copy.reached h.wellFormed h.extend hr.has ha with ⟨o, ho, hcopy⟩ | ⟨q, hq, -⟩
  · cases hcopy with
    | scalar hscalar => cases hscalar
    | tuple => exact h.tree.plain a ho
  · exact h.tree.plain q hq

theorem sort (hv : s.Copied t r c v w) : v.SameSort w := by
  cases hv with
  | scalar | typed => exact .refl _
  | placed hv hw =>
    cases h.copyAt hv hw with
    | scalar hscalar => exact .scalar hscalar
    | tuple => exact .tuple _ _
    | list => exact .list _ _
    | dict => exact .dict _ _
    | node => exact .node _ _

theorem grounded (hv : s.Copied t r c v w) : s.Grounded v := by
  cases hv with
  | scalar hscalar => exact .scalar s hscalar
  | placed hv => exact h.tree.grounded.below h.wellFormed (reaches_of_place hv)
  | typed hv => exact hv.grounded h.wellFormed h.tree.grounded

theorem has_mate (hv : s.Copied t r c v w) : t.Has w := by
  have hhas := (h.grounded hv).has
  cases hv with
  | scalar | typed => exact h.extend.has hhas
  | placed hv hw => exact (h.copyAt hv hw).has h.extend hhas

/-- What is held goes together, place by place. -/
theorem parts (hv : s.Copied t r c v w) :
    List.Forall₂ (s.Copied t r c) (s.parts v) (t.parts w) := by
  have hhas := (h.grounded hv).has
  cases hv with
  | scalar hscalar =>
    rw [parts_of_cell?_eq_none s hscalar, parts_of_cell?_eq_none t hscalar]
    exact .nil
  | placed hv hw =>
    have hcopies := (h.copyAt hv hw).parts (h.not_tuple hv)
    refine List.forall₂_iff_get.mpr ⟨hcopies.length_eq, fun i hi hi' => ?_⟩
    exact .placed ((place_snoc hv i).trans (List.getElem?_eq_getElem hi))
      ((place_snoc hw i).trans (List.getElem?_eq_getElem hi'))
  | typed hv =>
    rw [h.extend.parts hhas]
    exact List.forall₂_same.mpr fun p hp => .typed (hv.links (parts_subset_links _ hp))

theorem keys {a b : DictRef} (hv : s.Copied t r c (.dict a) (.dict b)) :
    (t.dict b).keys = (s.dict a).keys := by
  have hhas := (h.grounded hv).has
  cases hv with
  | scalar hscalar => cases hscalar
  | placed hv hw =>
    cases h.copyAt hv hw with
    | scalar hscalar => cases hscalar
    | dict _ hkeys => exact hkeys
  | typed => rw [show t.dict a = s.dict a from h.extend.agree hhas]

theorem node {a b : NodeRef} (hv : s.Copied t r c (.node a) (.node b)) :
    (s.node a).Related (s.Copied t r c) (t.node b) := by
  have hhas := (h.grounded hv).has
  have hparts := h.parts hv
  cases hv with
  | scalar hscalar => cases hscalar
  | placed hv hw =>
    have htype : s.Copied t r c (.node (s.node a).type) (.node (s.node a).type) :=
      .typed ⟨a, reaches_of_place hv, .refl _⟩
    cases h.copyAt hv hw with
    | scalar hscalar => cases hscalar
    | node _ hid hsame hkind _ _ hkeys => exact .of_parts hid hkind (hsame ▸ htype) hkeys hparts
  | typed hv =>
    have hnode := h.extend.node hhas
    refine .of_parts (by rw [hnode]) (by rw [hnode]) ?_ (fun role => by rw [hnode]) hparts
    rw [hnode]
    exact .typed (hv.links (by simp [Store.links]))

/-- Two cells of the tree are one if and only if their copies are, but for what is shared. -/
theorem same {a a' b b' : Value} (ha : s.Copied t r c a a') (hb : s.Copied t r c b b') :
    a'.sameCell b' = a.sameCell b ∨ a = b ∧ s.Inert a := by
  by_cases hshared : a = b ∧ a.cell?.isSome ∧ s.Shared r a
  · exact .inr ⟨hshared.1, h.tree.inert hshared.2.2 hshared.2.1⟩
  refine .inl ((h.sort ha).sameCell_eq fun hcell hcell' => ?_)
  have hunique : a = b → ¬ s.Shared r a := fun hab ha => hshared ⟨hab, hcell, ha⟩
  cases ha with
  | scalar hscalar =>
    rw [hscalar] at hcell
    cases hcell
  | @placed p _ _ hp hp' =>
    have hnew := (h.between hp hp' hcell').1
    cases hb with
    | scalar hscalar =>
      have hne : ∀ v : Value, v.cell?.isSome → v ≠ b := fun v hv e => by
        rw [e, hscalar] at hv
        cases hv
      exact ⟨fun e => absurd e (hne a hcell), fun e => absurd e (hne a' hcell')⟩
    | @placed q _ _ hq hq' =>
      refine ⟨?_, ?_⟩
      · rintro rfl
        by_cases hpq : q = p
        · subst hpq
          exact Option.some.inj (hp'.symm.trans hq')
        · exact absurd ⟨p, hp, .inr ⟨q, hpq, hq⟩⟩ (hunique rfl)
      · rintro rfl
        obtain rfl := h.place_eq hp' hq' hcell'
        exact Option.some.inj (hp.symm.trans hq)
    | typed hb =>
      have hold := (hb.grounded h.wellFormed h.tree.grounded).has
      exact ⟨fun e => absurd ⟨p, hp, .inl (e ▸ hb)⟩ (hunique e), fun e => absurd (e ▸ hold) hnew⟩
  | typed ha =>
    have hold := (ha.grounded h.wellFormed h.tree.grounded).has
    cases hb with
    | scalar | typed => exact .rfl
    | @placed q _ _ hq hq' =>
      refine ⟨?_, ?_⟩
      · rintro rfl
        exact absurd ⟨q, hq, .inl ha⟩ (hunique rfl)
      · rintro rfl
        exact absurd hold (h.between hq hq' hcell').1

/-- Reads can start from a tree and from its copy. -/
theorem counterparts : Counterparts (s.Copied t r c) s t where
  scalar hscalar := .scalar hscalar
  sort hv := h.sort hv
  list hv := h.parts hv
  tuple hv := h.parts hv
  dict hv := ⟨h.keys hv, h.parts hv⟩
  node hv := h.node hv
  same ha hb := h.same ha hb
  ends hv := (h.grounded hv).ends h.wellFormed
  depth := Nat.succ_le_succ h.extend.outlives.size_le
  has hv := (h.grounded hv).has
  has_mate hv := h.has_mate hv
  places hv _ := h.orders_later ▸ h.has_mate hv
  order {a b} hv := by
    refine .inl ?_
    cases hv with
    | scalar hscalar => cases hscalar
    | placed hv hw =>
      have hnew := Nat.not_lt.mp (h.between hv hw rfl).1
      have hnone : s.argOrder b = none := by simp [argOrder, Array.getD, h.orders, hnew]
      rw [h.order, hnone, h.tree.unevaluated (reaches_of_place hv)]
    | typed => exact h.order a

end Duplicated

end LiveTree
