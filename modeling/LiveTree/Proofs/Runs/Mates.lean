import LiveTree.Eval.Standard
import LiveTree.Proofs.Eval.Holder
import LiveTree.Proofs.Form.Written
import LiveTree.Proofs.Runs.Correspondence

/-! Values of two stores that hold the same. A relation between values of one store and values of
another makes them mates if what they hold is related again, place by place, and if it goes with
identity: two of the first are one cell if and only if their mates are. What is worked out from
values without cycles comes to the same from their mates: whether they are equal, their order, their
text, their form, the holder of a node. A list or dictionary may have several mates as long as it
does not matter to equality, since nothing in it is unequal to itself. -/

namespace LiveTree

/-- Whether a value stays equal to itself when it is taken to pieces: it holds no node, which is equal
to itself only, and no number that is not equal to itself. -/
def Store.Inert (s : Store) (v : Value) : Prop :=
  ∀ u, Reaches s.parts v u → (∀ r, u ≠ .node r) ∧ (u.cell? = none → s.equal u u = .ok true)

/-- Whether related values of two stores hold related values, without cycles. -/
structure Mates (R : Value → Value → Prop) (s t : Store) : Prop where
  scalar {v : Value} : v.cell? = none → R v v
  sort {v w : Value} : R v w → v.SameSort w
  list {a b : ListRef} : R (.list a) (.list b) → List.Forall₂ R (s.list a) (t.list b)
  tuple {a b : TupleRef} : R (.tuple a) (.tuple b) → List.Forall₂ R (s.tuple a) (t.tuple b)
  dict {a b : DictRef} : R (.dict a) (.dict b) → (s.dict a).Related R (t.dict b)
  node {a b : NodeRef} : R (.node a) (.node b) → (s.node a).Related R (t.node b)
  same {a a' b b' : Value} : R a a' → R b b' → a'.sameCell b' = a.sameCell b ∨ a = b ∧ s.Inert a
  ends {v w : Value} : R v w → EndsWithin s.parts s.depthBound v
  depth : s.depthBound ≤ t.depthBound

/-! ### Functions on lists that agree on mates -/

theorem Value.eq_of_cell?_eq {v w : Value} {c : Cell} (hv : v.cell? = some c) (hw : w.cell? = some c) :
    v = w := by
  cases v <;> cases w <;> cases hv <;> cases hw <;> rfl

namespace Store

variable {P Q : Value → Value → Prop} {eq eq' : Value → Value → Except Fault Bool}

theorem allEqual_congr (h : ∀ a a' b b', P a a' → Q b b' → eq' a' b' = eq a b)
    {as as' bs bs' : List Value} (has : List.Forall₂ P as as') (hbs : List.Forall₂ Q bs bs') :
    allEqual eq' as' bs' = allEqual eq as bs := by
  induction has generalizing bs bs' with
  | nil => cases hbs <;> rfl
  | cons ha _ ih =>
    cases hbs with
    | nil => rfl
    | cons hb hbs => rw [allEqual, allEqual, h _ _ _ _ ha hb, ih hbs]

theorem allEqual_of_forall₂ {as bs : List Value}
    (h : List.Forall₂ (fun a b => eq a b = .ok true) as bs) : allEqual eq as bs = .ok true := by
  induction h with
  | nil => rfl
  | cons hab _ ih =>
    rw [allEqual, hab]
    exact ih

theorem allSame_congr (h : ∀ a a' b b', P a a' → Q b b' → eq' a' b' = eq a b)
    {as as' bs bs' : List Value} (has : List.Forall₂ P as as') (hbs : List.Forall₂ Q bs bs') :
    allSame eq' as' bs' = allSame eq as bs := by
  induction has generalizing bs bs' with
  | nil => cases hbs <;> rfl
  | cons ha _ ih =>
    cases hbs with
    | nil => rfl
    | cons hb hbs => rw [allSame, allSame, h _ _ _ _ ha hb, ih hbs]

theorem entriesEqual_congr (h : ∀ a a' b b', P a a' → Q b b' → eq' a' b' = eq a b)
    {other other' : Entries Value} (hother : other.Related Q other')
    {l l' : List (String × Value)} (hl : List.Forall₂ (fun p q => q.1 = p.1 ∧ P p.2 q.2) l l') :
    entriesEqual eq' other' l' = entriesEqual eq other l := by
  induction hl with
  | nil => rfl
  | @cons p q _ _ hpq _ ih =>
    obtain ⟨_, a⟩ := p
    obtain ⟨k, a'⟩ := q
    obtain ⟨rfl, ha⟩ := hpq
    dsimp only at ha
    have hpartner := hother.get? k
    rw [entriesEqual, entriesEqual, ih]
    generalize other.get? k = o at hpartner
    generalize other'.get? k = o' at hpartner
    cases hpartner with
    | none => rfl
    | some hb =>
      dsimp only
      rw [h _ _ _ _ ha hb]

theorem entriesEqual_of_related {m m' : Entries Value}
    (h : m.Related (fun a b => eq a b = .ok true) m') :
    entriesEqual eq m' m.toList = .ok true := by
  have hall : ∀ l : List (String × Value), (∀ p ∈ l, p ∈ m.toList) →
      entriesEqual eq m' l = .ok true := by
    intro l
    induction l with
    | nil => exact fun _ => rfl
    | cons p rest ih =>
      intro hl
      have hpartner := h.get? p.1
      rw [Entries.get?_eq_some_iff.mpr (hl p List.mem_cons_self)] at hpartner
      rw [entriesEqual]
      generalize m'.get? p.1 = o at hpartner
      cases hpartner with
      | some hab =>
        dsimp only
        rw [hab]
        exact ih fun q hq => hl q (List.mem_cons_of_mem p hq)
  exact hall m.toList fun _ hp => hp

theorem mapsSame_congr (hP : ∀ a a' b b', P a a' → Q b b' → eq' a' b' = eq a b)
    (hnone : Q .none .none) {a a' b b' : Entries Value} (ha : a.Related P a')
    (hb : b.Related Q b') : mapsSame eq' a' b' = mapsSame eq a b := by
  have hcontains : b'.contains = b.contains := by
    funext k
    have hk := hb.get? k
    rw [Entries.contains, Entries.contains]
    generalize b.get? k = o at hk
    generalize b'.get? k = o' at hk
    cases hk <;> rfl
  have hentries : ∀ {l l' : List (String × Value)},
      List.Forall₂ (fun p q => q.1 = p.1 ∧ P p.2 q.2) l l' →
      entriesSame eq' b' l' = entriesSame eq b l := by
    intro l l' hl
    induction hl with
    | nil => rfl
    | @cons p q _ _ hpq _ ih =>
      obtain ⟨_, x⟩ := p
      obtain ⟨k, x'⟩ := q
      obtain ⟨rfl, hx⟩ := hpq
      dsimp only at hx
      have hpartner : Q ((b.get? k).getD .none) ((b'.get? k).getD .none) := by
        have hk := hb.get? k
        generalize b.get? k = o at hk
        generalize b'.get? k = o' at hk
        cases hk with
        | none => exact hnone
        | some hy => exact hy
      rw [entriesSame, entriesSame, hP _ _ _ _ hx hpartner, ih]
  rw [mapsSame, mapsSame, sameNames, sameNames, ha.size_eq, hb.size_eq, ha.keys, hcontains,
    hentries ha.pairs]

theorem rolesSame_congr {a b a' b' : Node} {roles : List Role}
    (h : ∀ role, mapsSame eq' ((a'.entries role).map .node) ((b'.entries role).map .node) =
      mapsSame eq ((a.entries role).map .node) ((b.entries role).map .node)) :
    rolesSame eq' a' b' roles = rolesSame eq a b roles := by
  induction roles with
  | nil => rfl
  | cons role rest ih => simp only [rolesSame, h, ih]

theorem orderSequences_congr {order order' : Value → Value → Except Fault Bool} {rel : Relation}
    (heq : ∀ a a' b b', P a a' → Q b b' → eq' a' b' = eq a b)
    (horder : ∀ a a' b b', P a a' → Q b b' → order' a' b' = order a b)
    {as as' bs bs' : List Value} (has : List.Forall₂ P as as') (hbs : List.Forall₂ Q bs bs') :
    orderSequences eq' order' rel as' bs' = orderSequences eq order rel as bs := by
  induction has generalizing bs bs' with
  | nil => simp only [orderSequences, hbs.length_eq]
  | cons ha has ih =>
    cases hbs with
    | nil => simp only [orderSequences, List.length_cons, has.length_eq]
    | cons hb hbs =>
      rw [orderSequences, orderSequences, heq _ _ _ _ ha hb, horder _ _ _ _ ha hb, ih hbs]

/-- A value without a cell is equal to others of its kind in every store and to every depth. -/
theorem equalTo_of_scalar {s t : Store} {v : Value} (hv : v.cell? = none) (n m : ℕ) :
    t.equalTo (m + 1) v v = s.equalTo (n + 1) v v := by
  cases v <;> first | rfl | cases hv

theorem Inert.part {s : Store} {v : Value} (h : s.Inert v) {p : Value} (hp : p ∈ s.parts v) :
    s.Inert p := fun u hu => h u (hu.of_below hp)

end Store

/-! ### Values and their mates -/

namespace Mates

open Store

theorem exists_succ_le {n m : ℕ} (hm : n + 1 ≤ m) : ∃ k, m = k + 1 ∧ n ≤ k :=
  ⟨m - 1, by omega, by omega⟩

variable {R : Value → Value → Prop} {s t : Store} {a a' b b' v w : Value} {r r' : NodeRef} {n m : ℕ}
  (h : Mates R s t)

include h

theorem parts (hv : R v w) : List.Forall₂ R (s.parts v) (t.parts w) := by
  cases h.sort hv with
  | scalar hcell =>
    rw [parts_of_cell?_eq_none s hcell, parts_of_cell?_eq_none t hcell]
    exact .nil
  | list => exact h.list hv
  | tuple => exact h.tuple hv
  | dict => exact (h.dict hv).values
  | node => exact (h.node hv).parts

/-- What is reached from a value with a mate has one. -/
theorem reached (hv : R v w) {u : Value} (hu : Reaches s.parts v u) : ∃ u', R u u' := by
  refine hu.closed (P := fun u => ∃ u', R u u') ⟨w, hv⟩ ?_
  rintro x - ⟨x', hx⟩ y hy
  obtain ⟨y', -, hy'⟩ := exists_partner (h.parts hx) y hy
  exact ⟨y', hy'⟩

/-- What is a part of the mate is the mate of a part. -/
theorem part (hv : R v w) {q : Value} (hq : q ∈ t.parts w) : ∃ p ∈ s.parts v, R p q :=
  exists_partner (h.parts hv).flip q hq

/-- The mate is no deeper. -/
theorem ends_mate (hv : R v w) (hn : EndsWithin s.parts n v) : EndsWithin t.parts n w := by
  induction n generalizing v w with
  | zero => exact hn.elim
  | succ n ih =>
    intro q hq
    obtain ⟨p, hp, hpq⟩ := h.part hv hq
    exact ih hpq (hn p hp)

omit h in
/-- Parts that are mates, with a descent from the first ones that ends. -/
theorem parts_ends (hn : EndsWithin s.parts (n + 1) v) {xs ys : List Value}
    (hxs : ∀ x ∈ xs, x ∈ s.parts v) (h' : List.Forall₂ R xs ys) :
    List.Forall₂ (fun x y => R x y ∧ EndsWithin s.parts n x) xs ys :=
  forall₂_imp_mem h' fun x hx _ _ hxy => ⟨hxy, hn x (hxs x hx)⟩

theorem dict_ends {x y : DictRef} (hv : R (.dict x) (.dict y))
    (hn : EndsWithin s.parts (n + 1) (.dict x)) :
    (s.dict x).Related (fun p q => R p q ∧ EndsWithin s.parts n p) (t.dict y) :=
  ⟨(h.dict hv).keys, parts_ends hn (fun _ hp => hp) (h.dict hv).values⟩

theorem nodes_same {q q' : NodeRef} (hr : R (.node r) (.node r')) (hq : R (.node q) (.node q')) :
    r = q ↔ r' = q' := by
  have hcell : ∀ x y : NodeRef, (Value.node x).sameCell (.node y) = true ↔ x = y := by
    simp [Value.sameCell, Value.cell?]
  rcases h.same hr hq with e | ⟨-, hinert⟩
  · rw [← hcell, ← hcell, e]
  · exact absurd rfl ((hinert _ (.refl _)).1 r)

theorem typeOf_id_eq (hr : R (.node r) (.node r')) : (t.typeOf r').id = (s.typeOf r).id :=
  (h.node (h.node hr).type).id

/-! ### Looks -/

theorem alike (hv : R v w) : Alike s t v w := by
  have hend := h.ends hv
  generalize s.depthBound = n at hend
  induction n generalizing v w with
  | zero => exact hend.elim
  | succ n ih =>
    have hlist : ∀ {xs ys : List Value}, (∀ p ∈ xs, p ∈ s.parts v) → List.Forall₂ R xs ys →
        List.Forall₂ (Alike s t) xs ys := fun hxs hall =>
      forall₂_imp_mem hall fun p hp _ _ hpq => ih hpq (hend p (hxs p hp))
    cases h.sort hv with
    | scalar hcell => exact .scalar hcell
    | list a b => exact .sequence rfl rfl (hlist (fun _ hp => hp) (h.list hv))
    | tuple a b => exact .sequence rfl rfl (hlist (fun _ hp => hp) (h.tuple hv))
    | dict a b =>
      exact .dict (h.dict hv).keys (hlist (fun _ hp => hp) (h.dict hv).values)
    | node a b =>
      have hnode := h.node hv
      refine .node hnode.id (h.typeOf_id_eq hv) hnode.kind ?_ ?_ (fun role => (hnode.entries role).keys)
        fun role => ?_
      · exact ih hnode.value (hend _ (s.node a).value_mem_parts)
      · exact ih hnode.default (hend _ (s.node a).default_mem_parts)
      · exact forall₂_imp_mem (hnode.entries role).values fun q hq _ _ hqq' =>
          ih hqq' (hend _ ((s.node a).entry_mem_parts role hq))

theorem form_eq {ν : Type} (hv : R v w) : (t.form w : Except Fault (Data ν)) = s.form v := by
  have hend := h.ends hv
  obtain ⟨d, hd⟩ := exists_form (ν := ν) hend
  rw [form, form, (h.alike hv).formTo_eq, hd.formTo_eq hend, hd.formTo_eq (hend.mono h.depth)]

/-! ### Equality and order -/

/-- Two mates of a value that stays equal to itself are equal. -/
theorem equalTo_of_inert (ha : R v w) (hb : R v b) (hv : s.Inert v) (hn : EndsWithin s.parts n v)
    (hm : n ≤ m) : t.equalTo m w b = .ok true := by
  induction n generalizing m v w b with
  | zero => exact hn.elim
  | succ n ih =>
    obtain ⟨m, rfl, hnm⟩ := exists_succ_le hm
    have hlist : ∀ {xs ys zs : List Value}, (∀ p ∈ xs, p ∈ s.parts v) → List.Forall₂ R xs ys →
        List.Forall₂ R xs zs → List.Forall₂ (fun y z => t.equalTo m y z = .ok true) ys zs :=
      fun hxs hys hzs => forall₂_of_common hys hzs fun p hp _ _ hpy hpz =>
        ih hpy hpz (hv.part (hxs p hp)) (hn p (hxs p hp)) hnm
    by_cases hcell : w.sameCell b = true
    · unfold equalTo; rw [if_pos hcell]
    cases h.sort ha with
    | scalar hscalar =>
      obtain ⟨-, hself⟩ := hv v (.refl v)
      cases h.sort hb with
      | scalar =>
        rw [equalTo_of_scalar hscalar s.size m]
        exact hself hscalar
      | _ => cases hscalar
    | node r => exact absurd rfl ((hv _ (.refl _)).1 r)
    | list x y =>
      cases h.sort hb with
      | scalar hscalar => cases hscalar
      | list _ z =>
        unfold equalTo; rw [if_neg hcell]
        exact allEqual_of_forall₂ (hlist (fun _ hp => hp) (h.list ha) (h.list hb))
    | tuple x y =>
      cases h.sort hb with
      | scalar hscalar => cases hscalar
      | tuple _ z =>
        unfold equalTo; rw [if_neg hcell]
        exact allEqual_of_forall₂ (hlist (fun _ hp => hp) (h.tuple ha) (h.tuple hb))
    | dict x y =>
      cases h.sort hb with
      | scalar hscalar => cases hscalar
      | dict _ z =>
        have hy := h.dict ha
        have hz := h.dict hb
        unfold equalTo; rw [if_neg hcell]
        simp only [Value.scalar?]
        rw [if_pos (hy.size_eq.trans hz.size_eq.symm)]
        exact entriesEqual_of_related ⟨hz.keys.trans hy.keys.symm,
          hlist (fun _ hp => hp) hy.values hz.values⟩

theorem equalTo_eq (ha : R a a') (hb : R b b') (hn : EndsWithin s.parts n a) (hm : n ≤ m) :
    t.equalTo m a' b' = s.equalTo n a b := by
  induction n generalizing m a a' b b' with
  | zero => exact hn.elim
  | succ n ih =>
    rcases h.same ha hb with hcell | ⟨rfl, hinert⟩
    · obtain ⟨m, rfl, hnm⟩ := exists_succ_le hm
      have hbelow : ∀ x x' y y', R x x' ∧ EndsWithin s.parts n x → R y y' →
          t.equalTo m x' y' = s.equalTo n x y := fun x x' y y' hx hy => ih hx.1 hy hx.2 hnm
      unfold equalTo
      rw [hcell]
      refine if_congr Iff.rfl rfl ?_
      cases h.sort ha with
      | @scalar a hscalar =>
        cases h.sort hb with
        | @scalar b => cases a <;> cases b <;> first | rfl | cases hscalar
        | _ => cases a <;> first | rfl | cases hscalar
      | list x x' =>
        cases h.sort hb with
        | @scalar b hscalar => cases b <;> first | rfl | cases hscalar
        | list y y' =>
          exact allEqual_congr hbelow (parts_ends hn (fun _ hp => hp) (h.list ha)) (h.list hb)
        | _ => rfl
      | tuple x x' =>
        cases h.sort hb with
        | @scalar b hscalar => cases b <;> first | rfl | cases hscalar
        | tuple y y' =>
          exact allEqual_congr hbelow (parts_ends hn (fun _ hp => hp) (h.tuple ha)) (h.tuple hb)
        | _ => rfl
      | dict x x' =>
        cases h.sort hb with
        | @scalar b hscalar => cases b <;> first | rfl | cases hscalar
        | dict y y' =>
          simp only [Value.scalar?]
          rw [(h.dict ha).size_eq, (h.dict hb).size_eq,
            entriesEqual_congr hbelow (h.dict hb) (h.dict_ends ha hn).pairs]
        | _ => rfl
      | node x x' =>
        cases h.sort hb with
        | @scalar b => cases b <;> rfl
        | _ => rfl
    · have hself : s.equalTo (n + 1) a a = .ok true := by
        by_cases hcell : a.sameCell a = true
        · unfold equalTo; rw [if_pos hcell]
        · have hscalar : a.cell? = none := by
            cases a <;> first | rfl | simp [Value.sameCell, Value.cell?] at hcell
          rw [equalTo_of_scalar hscalar s.size n]
          exact (hinert a (.refl a)).2 hscalar
      rw [hself]
      exact h.equalTo_of_inert ha hb hinert hn hm

theorem equal_eq (ha : R a a') (hb : R b b') : t.equal a' b' = s.equal a b :=
  h.equalTo_eq ha hb (h.ends ha) h.depth

theorem orderTo_eq {rel : Relation} (ha : R a a') (hb : R b b') (hn : EndsWithin s.parts n a)
    (hm : n ≤ m) : t.orderTo rel m a' b' = s.orderTo rel n a b := by
  induction n generalizing m a a' b b' with
  | zero => exact hn.elim
  | succ n ih =>
    obtain ⟨m, rfl, hnm⟩ := exists_succ_le hm
    have hequal : ∀ x x' y y', R x x' ∧ EndsWithin s.parts n x → R y y' →
        t.equalTo m x' y' = s.equalTo n x y := fun x x' y y' hx hy => h.equalTo_eq hx.1 hy hx.2 hnm
    have hbelow : ∀ x x' y y', R x x' ∧ EndsWithin s.parts n x → R y y' →
        t.orderTo rel m x' y' = s.orderTo rel n x y := fun x x' y y' hx hy => ih hx.1 hy hx.2 hnm
    cases h.sort ha with
    | @scalar a hscalar =>
      cases h.sort hb with
      | @scalar b => cases a <;> cases b <;> first | rfl | cases hscalar
      | _ => cases a <;> first | rfl | cases hscalar
    | list x x' =>
      cases h.sort hb with
      | @scalar b hscalar => cases b <;> first | rfl | cases hscalar
      | list y y' =>
        exact orderSequences_congr hequal hbelow
          (parts_ends hn (fun _ hp => hp) (h.list ha)) (h.list hb)
      | _ => rfl
    | tuple x x' =>
      cases h.sort hb with
      | @scalar b hscalar => cases b <;> first | rfl | cases hscalar
      | tuple y y' =>
        exact orderSequences_congr hequal hbelow
          (parts_ends hn (fun _ hp => hp) (h.tuple ha)) (h.tuple hb)
      | _ => rfl
    | dict x x' =>
      cases h.sort hb with
      | @scalar b => cases b <;> rfl
      | _ => rfl
    | node x x' =>
      cases h.sort hb with
      | @scalar b => cases b <;> rfl
      | _ => rfl

theorem order_eq (rel : Relation) (ha : R a a') (hb : R b b') :
    t.order rel a' b' = s.order rel a b := h.orderTo_eq ha hb (h.ends ha) h.depth

/-- What nodes hold compares as what their mates hold, if all that is below them does. -/
theorem sameFields_eq (hbelow : ∀ a a' b b', R a a' ∧ EndsWithin s.parts n a → R b b' →
      t.sameTo m a' b' = s.sameTo n a b) {x x' y y' : NodeRef} (hx : R (.node x) (.node x'))
    (hy : R (.node y) (.node y')) (hn : EndsWithin s.parts (n + 1) (.node x)) :
    t.sameTo m (t.node x').value (t.node y').value =
        s.sameTo n (s.node x).value (s.node y).value ∧
      t.sameTo m (t.node x').default (t.node y').default =
        s.sameTo n (s.node x).default (s.node y).default ∧
      rolesSame (t.sameTo m) (t.node x') (t.node y') Role.all =
        rolesSame (s.sameTo n) (s.node x) (s.node y) Role.all := by
  have hx := h.node hx
  have hy := h.node hy
  refine ⟨hbelow _ _ _ _ ⟨hx.value, hn _ (s.node x).value_mem_parts⟩ hy.value,
    hbelow _ _ _ _ ⟨hx.default, hn _ (s.node x).default_mem_parts⟩ hy.default,
    rolesSame_congr fun role => mapsSame_congr hbelow (h.scalar rfl)
      (.map ⟨(hx.entries role).keys, ?_⟩) (hy.entries role).map⟩
  exact forall₂_imp_mem (hx.entries role).values fun q hq _ _ hqq' =>
    ⟨hqq', hn _ ((s.node x).entry_mem_parts role hq)⟩

/-- Structural equality comes to the same if each cell has one mate. -/
theorem sameTo_eq (hexact : ∀ a a' b b', R a a' → R b b' → a'.sameCell b' = a.sameCell b)
    (ha : R a a') (hb : R b b') (hn : EndsWithin s.parts n a) (hm : n ≤ m) :
    t.sameTo m a' b' = s.sameTo n a b := by
  induction n generalizing m a a' b b' with
  | zero => exact hn.elim
  | succ n ih =>
    obtain ⟨m, rfl, hnm⟩ := exists_succ_le hm
    have hbelow : ∀ x x' y y', R x x' ∧ EndsWithin s.parts n x → R y y' →
        t.sameTo m x' y' = s.sameTo n x y := fun x x' y y' hx hy => ih hx.1 hy hx.2 hnm
    have hlists : ∀ {xs xs' ys ys' : List Value},
        (∀ x ∈ xs, x ∈ s.parts a) → List.Forall₂ R xs xs' → List.Forall₂ R ys ys' →
        (if xs'.length = ys'.length then allSame (t.sameTo m) xs' ys' else .ok false) =
        if xs.length = ys.length then allSame (s.sameTo n) xs ys else .ok false := by
      intro xs xs' ys ys' hxs hall hall'
      rw [hall.length_eq, hall'.length_eq,
        allSame_congr hbelow (parts_ends hn hxs hall) hall']
    have hequal := h.equal_eq ha hb
    unfold sameTo
    rw [hexact _ _ _ _ ha hb]
    refine if_congr Iff.rfl rfl ?_
    cases h.sort ha with
    | @scalar a hscalar =>
      cases h.sort hb with
      | @scalar b hscalar' =>
        cases a with
        | none => cases b <;> rfl
        | bool | int | float | str => exact hequal
        | _ => cases hscalar
      | _ =>
        cases a with
        | none | bool | int | float | str => exact hequal
        | _ => cases hscalar
    | list x x' =>
      cases h.sort hb with
      | @scalar b hscalar => cases b <;> first | exact hequal | cases hscalar
      | list y y' => exact hlists (fun _ hp => hp) (h.list ha) (h.list hb)
      | tuple y y' => exact hlists (fun _ hp => hp) (h.list ha) (h.tuple hb)
      | _ => exact hequal
    | tuple x x' =>
      cases h.sort hb with
      | @scalar b hscalar => cases b <;> first | exact hequal | cases hscalar
      | list y y' => exact hlists (fun _ hp => hp) (h.tuple ha) (h.list hb)
      | tuple y y' => exact hlists (fun _ hp => hp) (h.tuple ha) (h.tuple hb)
      | _ => exact hequal
    | dict x x' =>
      cases h.sort hb with
      | @scalar b hscalar => cases b <;> first | exact hequal | cases hscalar
      | dict y y' => exact mapsSame_congr hbelow (h.scalar rfl) (h.dict_ends ha hn) (h.dict hb)
      | _ => exact hequal
    | node x x' =>
      cases h.sort hb with
      | @scalar b hscalar => cases b <;> first | exact hequal | cases hscalar
      | node y y' =>
        obtain ⟨hvalue, hdefault, hroles⟩ := h.sameFields_eq hbelow ha hb hn
        have hx := h.node ha
        have hy := h.node hb
        dsimp only
        rw [hx.id, hy.id, (h.node hx.type).id, (h.node hy.type).id, hvalue, hdefault, hroles]
      | _ => exact hequal

theorem sameNodes_eq (hexact : ∀ a a' b b', R a a' → R b b' → a'.sameCell b' = a.sameCell b)
    {q q' : NodeRef} (hr : R (.node r) (.node r')) (hq : R (.node q) (.node q')) :
    t.sameNodes r' q' = s.sameNodes r q := h.sameTo_eq hexact hr hq (h.ends hr) h.depth

/-! ### Text and paths -/

omit h in
/-- No cell of a list is met going down from a value if none is met but its own and it has no
cycles. -/
theorem apart_cons {next : Value → List Value} {within : List Cell} {c : Cell}
    (hn : EndsWithin next n v) (hv : v.cell? = some c)
    (hapart : ∀ u, Reaches next v u → ∀ d ∈ within, u.cell? ≠ some d) {p : Value} (hp : p ∈ next v) :
    ∀ u, Reaches next p u → ∀ d ∈ c :: within, u.cell? ≠ some d := by
  intro u hu d hd hcell
  rcases List.mem_cons.mp hd with rfl | hd
  · obtain rfl := Value.eq_of_cell?_eq hcell hv
    exact hn.not_cycle (Relation.TransGen.head' hp hu)
  · exact hapart u (hu.of_below hp) d hd hcell

/-- The text does not depend on the lists and dictionaries within which a value is written, as long
as it holds none of them. -/
theorem written_eq (hv : R v w) (hn : EndsWithin s.parts n v) (hm : n ≤ m) {within within' : List Cell}
    (hapart : ∀ u, Reaches s.parts v u → ∀ d ∈ within, u.cell? ≠ some d)
    (hapart' : ∀ u, Reaches t.parts w u → ∀ d ∈ within', u.cell? ≠ some d) :
    t.written m within' w = s.written n within v := by
  induction n generalizing m v w within within' with
  | zero => exact hn.elim
  | succ n ih =>
    obtain ⟨m, rfl, hnm⟩ := exists_succ_le hm
    have hout : ∀ c, v.cell? = some c → within.contains c = false := fun c hc => by
      rw [← Bool.not_eq_true, List.contains_iff_mem]
      exact fun hmem => hapart v (.refl v) c hmem hc
    have hout' : ∀ c, w.cell? = some c → within'.contains c = false := fun c hc => by
      rw [← Bool.not_eq_true, List.contains_iff_mem]
      exact fun hmem => hapart' w (.refl w) c hmem hc
    have hbelow : ∀ c c', v.cell? = some c → w.cell? = some c' → ∀ p ∈ s.parts v,
        ∀ q ∈ t.parts w, R p q → t.written m (c' :: within') q = s.written n (c :: within) p :=
      fun c c' hc hc' p hp q hq hpq => ih hpq (hn p hp) hnm
        (apart_cons hn hc hapart hp) (apart_cons (h.ends_mate hv hn) hc' hapart' hq)
    cases h.sort hv with
    | scalar hscalar =>
      cases v with
      | bool b => cases b <;> rfl
      | none | int | float | str => rfl
      | _ => cases hscalar
    | list a b =>
      have hlist := mapM_congr_forall₂ (forall₂_imp_mem (h.list hv) fun p hp q hq hpq =>
        hbelow _ _ rfl rfl p hp q hq hpq)
      rw [written, written, hout _ rfl, hout' _ rfl, hlist]
    | tuple a b =>
      have hlist := mapM_congr_forall₂ (forall₂_imp_mem (h.tuple hv) fun p hp q hq hpq =>
        hbelow _ _ rfl rfl p hp q hq hpq)
      rw [written, written, hout _ rfl, hout' _ rfl, hlist]
    | dict a b =>
      have hentries : (t.dict b).toList.mapM (fun p => do
            return Text.quote p.1 ++ ": " ++ (← t.written m (.dict b :: within') p.2)) =
          (s.dict a).toList.mapM fun p => do
            return Text.quote p.1 ++ ": " ++ (← s.written n (.dict a :: within) p.2) := by
        refine mapM_congr_forall₂ (forall₂_imp_mem (h.dict hv).pairs fun p hp q hq hpq => ?_)
        rw [hpq.1, hbelow _ _ rfl rfl p.2 (List.mem_map_of_mem hp) q.2 (List.mem_map_of_mem hq) hpq.2]
      rw [written, written, hout _ rfl, hout' _ rfl, hentries]
    | node a b =>
      have hnode := h.node hv
      have hvalue : t.written m within' (t.node b).value = s.written n within (s.node a).value :=
        ih hnode.value (hn _ (s.node a).value_mem_parts) hnm
          (fun u hu => hapart u (hu.of_below (s.node a).value_mem_parts))
          fun u hu => hapart' u (hu.of_below (t.node b).value_mem_parts)
      have hnone := (h.sort hnode.value).isNone_eq
      have hmaps : (Role.all.filterMap fun role =>
            if ((t.node b).entries role).isEmpty then none
            else some (role.name ++ "=" ++ sortedNames ((t.node b).entries role).keys)) =
          Role.all.filterMap fun role => if ((s.node a).entries role).isEmpty then none
            else some (role.name ++ "=" ++ sortedNames ((s.node a).entries role).keys) := by
        congr 1
        funext role
        rw [(hnode.entries role).isEmpty_eq, (hnode.entries role).keys]
      simp only [written, hvalue, hnone, hmaps, hnode.id, (h.node hnode.type).id]

theorem valueText_eq (hv : R v w) : t.valueText w = s.valueText v := by
  have hwritten : t.writtenValue w = s.writtenValue v :=
    h.written_eq hv (h.ends hv) h.depth (fun _ _ _ hd => nomatch hd) fun _ _ _ hd => nomatch hd
  cases h.sort hv with
  | scalar => cases v <;> first | rfl | exact hwritten
  | _ => exact hwritten

theorem shownText_eq (hv : R v w) : t.shownText w = s.shownText v := by
  have htext := h.valueText_eq hv
  cases h.sort hv with
  | scalar => cases v <;> first | rfl | exact htext
  | _ => exact htext

theorem hashableTo_eq (hv : R v w) (hn : EndsWithin s.parts n v) (hm : n ≤ m) :
    t.hashableTo m w = s.hashableTo n v := by
  induction n generalizing m v w with
  | zero => exact hn.elim
  | succ n ih =>
    obtain ⟨m, rfl, hnm⟩ := exists_succ_le hm
    cases h.sort hv with
    | scalar hscalar => cases v <;> first | rfl | cases hscalar
    | tuple a b =>
      have hall : ∀ {xs ys : List Value}, List.Forall₂ (fun p q => t.hashableTo m q = s.hashableTo n p)
          xs ys → ys.all (t.hashableTo m) = xs.all (s.hashableTo n) := by
        intro xs ys hxs
        induction hxs with
        | nil => rfl
        | cons hpq _ ih => rw [List.all_cons, List.all_cons, hpq, ih]
      exact hall (forall₂_imp_mem (h.tuple hv) fun p hp _ _ hpq => ih hpq (hn p hp) hnm)
    | _ => rfl

theorem segment_eq (hv : R v w) : t.segment w = s.segment v := by
  have hhash := h.hashableTo_eq hv (h.ends hv) h.depth
  cases h.sort hv with
  | scalar => cases v <;> first | rfl | exact congrArg Segment.foreign hhash
  | _ => exact congrArg Segment.foreign hhash

theorem truthy_eq (hv : R v w) : t.truthy w = s.truthy v := by
  have hempty : ∀ {l l' : List Value}, List.Forall₂ R l l' → l'.isEmpty = l.isEmpty :=
    fun hl => by cases hl <;> rfl
  cases h.sort hv with
  | scalar hscalar => cases v <;> first | rfl | cases hscalar
  | list => simp only [truthy, hempty (h.list hv)]
  | tuple => simp only [truthy, hempty (h.tuple hv)]
  | dict => simp only [truthy, (h.dict hv).isEmpty_eq]
  | node => rfl

theorem segments_eq (hv : R v w) : t.segments w = s.segments v := by
  have hsegments : ∀ {l l' : List Value}, List.Forall₂ R l l' → l'.map t.segment = l.map s.segment := by
    intro l l' hl
    induction hl with
    | nil => rfl
    | cons hpq _ ih => rw [List.map_cons, List.map_cons, h.segment_eq hpq, ih]
  unfold segments
  rw [h.truthy_eq hv]
  cases h.sort hv with
  | scalar hscalar => cases v <;> first | rfl | cases hscalar
  | list => simp only [hsegments (h.list hv)]
  | tuple => simp only [hsegments (h.tuple hv)]
  | dict => rfl
  | node => rfl

/-! ### Holders -/

/-- Mates are held in the same places. -/
theorem held (hr : R (.node r) (.node r')) :
    List.Forall₂ (fun q q' => R (.node q) (.node q')) (s.held r) (t.held r') :=
  have hnode := h.node hr
  List.rel_append (List.rel_append (hnode.entries .children).values (hnode.entries .metadata).values)
    (hnode.entries .constraints).values

theorem searchBelow_matches {target target' : NodeRef} (htarget : R (.node target) (.node target'))
    (hr : R (.node r) (.node r')) (hn : EndsWithin s.parts n (.node r)) (hm : n ≤ m) :
    Matches (Option.Rel fun q q' => R (.node q) (.node q')) (s.searchBelow target n r)
      (t.searchBelow target' m r') := by
  induction n generalizing m r r' with
  | zero => exact hn.elim
  | succ n ih =>
    obtain ⟨m, rfl, hnm⟩ := exists_succ_le hm
    have hentries : ∀ {l l' : List NodeRef}, (∀ q ∈ l, q ∈ s.held r) →
        List.Forall₂ (fun q q' => R (.node q) (.node q')) l l' →
        Matches (Option.Rel fun q q' => R (.node q) (.node q'))
          (searchEntries (s.searchBelow target n) target r l)
          (searchEntries (t.searchBelow target' m) target' r' l') := by
      intro l l' hl hall
      induction hall with
      | nil => exact .ok .none
      | @cons q q' _ _ hq _ ihl =>
        obtain ⟨hheld, hrest⟩ := List.forall_mem_cons.mp hl
        have hsame := h.nodes_same hq htarget
        rw [searchEntries, searchEntries]
        by_cases hhere : q = target
        · rw [if_pos hhere, if_pos (hsame.mp hhere)]
          exact .ok (.some hr)
        · rw [if_neg hhere, if_neg (mt hsame.mpr hhere)]
          refine (ih hq (hn _ (mem_parts_of_held hheld)) hnm).bind fun found found' hfound => ?_
          cases hfound with
          | some hp => exact .ok (.some hp)
          | none => exact ihl hrest
    rw [searchBelow, searchBelow]
    exact hentries (fun _ hq => hq) (h.held hr)

/-- The holders that are found are mates. -/
theorem findParent_matches {root root' : NodeRef} (hr : R (.node r) (.node r'))
    (hroot : R (.node root) (.node root')) :
    Matches (Option.Rel fun q q' => R (.node q) (.node q')) (s.findParent r root)
      (t.findParent r' root') := by
  have hsame := h.nodes_same hroot hr
  rw [findParent, findParent]
  by_cases hhere : root = r
  · rw [if_pos hhere, if_pos (hsame.mp hhere)]
    exact .ok .none
  · rw [if_neg hhere, if_neg (mt hsame.mpr hhere)]
    exact h.searchBelow_matches hr hroot (h.ends hroot) h.depth

end Mates

end LiveTree
