import LiveTree.Proofs.Runs.Mates
import LiveTree.Proofs.Store.Sealed

/-! The same evaluation from two stores, on values that hold the same. What the first run makes anew,
the second one makes as well, as far behind the cells of the store that it has started from. So the
values that go together are the mates from before and the cells that have been made in the same step;
they are mates again. This is a lawful correspondence. -/

namespace LiveTree

open Store

/-- Whether two runs can start from related values of their stores: the values are mates, and the
argument orders that the second store remembers are those of the first, if not more. -/
structure Counterparts (R : Value → Value → Prop) (s t : Store) : Prop extends Mates R s t where
  has {v w : Value} : R v w → s.Has v
  has_mate {v w : Value} : R v w → t.Has w
  places {r r' : NodeRef} : R (.node r) (.node r') → r.index < s.argOrders.size →
    r'.index < t.argOrders.size
  order {r r' : NodeRef} : R (.node r) (.node r') → t.argOrder r' = s.argOrder r ∨
    s.argOrder r = none ∧ ∃ keys, t.argOrder r' = some keys ∧
      argumentOrder (s.node r).children.keys = .ok keys

/-- Whether two cells have been made by two runs in the same step: they are as far behind what each
store had to start with. -/
def Minted (s₀ t₀ : Store) : Value → Value → Prop
  | .list a, .list b => s₀.lists.size ≤ a.index ∧ b.index + s₀.lists.size = a.index + t₀.lists.size
  | .tuple a, .tuple b =>
    s₀.tuples.size ≤ a.index ∧ b.index + s₀.tuples.size = a.index + t₀.tuples.size
  | .dict a, .dict b => s₀.dicts.size ≤ a.index ∧ b.index + s₀.dicts.size = a.index + t₀.dicts.size
  | _, _ => False

/-- Values of two runs that go together: mates from before, or cells made in the same step. -/
inductive Joined (R : Value → Value → Prop) (s₀ t₀ s : Store) (v w : Value) : Prop
  | known (h : R v w)
  | made (h : Minted s₀ t₀ v w) (hv : s.Has v)

section Minted

variable {s₀ t₀ : Store} {a a' b b' v w : Value}

theorem Minted.sort (h : Minted s₀ t₀ v w) : v.SameSort w := by
  cases v <;> cases w <;> first | exact h.elim | constructor

theorem Minted.not_has (h : Minted s₀ t₀ v w) : ¬ s₀.Has v := by
  cases v <;> cases w <;> first | exact h.elim | exact Nat.not_lt.mpr h.1

theorem Minted.symm (h : Minted s₀ t₀ v w) : Minted t₀ s₀ w v := by
  cases v <;> cases w <;> first
    | exact h.elim
    | (simp only [Minted] at h ⊢; omega)

theorem Minted.not_has_mate (h : Minted s₀ t₀ v w) : ¬ t₀.Has w := h.symm.not_has

/-- Each cell that has been made by the first run goes together with one. -/
theorem Minted.exists_mate {s : Store} (hv : s₀.Between s v) (hnode : ∀ r, v ≠ .node r) :
    ∃ w, Minted s₀ t₀ v w := by
  obtain ⟨hnew, -⟩ := hv
  cases v with
  | node r => exact absurd rfl (hnode r)
  | list r =>
    refine ⟨.list ⟨r.index - s₀.lists.size + t₀.lists.size⟩, Nat.not_lt.mp hnew, ?_⟩
    have := Nat.not_lt.mp hnew
    dsimp only
    omega
  | tuple r =>
    refine ⟨.tuple ⟨r.index - s₀.tuples.size + t₀.tuples.size⟩, Nat.not_lt.mp hnew, ?_⟩
    have := Nat.not_lt.mp hnew
    dsimp only
    omega
  | dict r =>
    refine ⟨.dict ⟨r.index - s₀.dicts.size + t₀.dicts.size⟩, Nat.not_lt.mp hnew, ?_⟩
    have := Nat.not_lt.mp hnew
    dsimp only
    omega
  | _ => exact absurd trivial hnew

/-- Where a cell has been made, so has one only. -/
theorem Minted.eq_of_left (h : Minted s₀ t₀ v w) {u : Value} (hu : Minted s₀ t₀ v u) : u = w := by
  cases v <;> cases w <;> try exact h.elim
  all_goals cases u <;> try exact hu.elim
  all_goals
    obtain ⟨_, hw⟩ := h
    obtain ⟨_, hu⟩ := hu
    refine congrArg _ ?_
    first
    | exact congrArg ListRef.mk (by omega)
    | exact congrArg TupleRef.mk (by omega)
    | exact congrArg DictRef.mk (by omega)

end Minted

/-- How the stores of two runs go together: each has grown by as many cells of each sort, and what
goes together are mates. -/
structure Parallel (R : Value → Value → Prop) (s₀ t₀ s t : Store) : Prop where
  first : s₀.Extends s
  second : t₀.Extends t
  nodes : s.nodes = s₀.nodes
  lists : t.lists.size + s₀.lists.size = s.lists.size + t₀.lists.size
  tuples : t.tuples.size + s₀.tuples.size = s.tuples.size + t₀.tuples.size
  dicts : t.dicts.size + s₀.dicts.size = s.dicts.size + t₀.dicts.size
  mates : Mates (Joined R s₀ t₀ s) s t
  places {r r' : NodeRef} : R (.node r) (.node r') → r.index < s.argOrders.size →
    r'.index < t.argOrders.size
  order {r r' : NodeRef} : R (.node r) (.node r') → t.argOrder r' = s.argOrder r ∨
    s.argOrder r = none ∧ ∃ keys, t.argOrder r' = some keys ∧
      argumentOrder (s₀.node r).children.keys = .ok keys

/-- The correspondence of two runs on values that hold the same. -/
def Correspondence.parallel (R : Value → Value → Prop) (s₀ t₀ : Store) : Correspondence where
  stores := Parallel R s₀ t₀
  values := Joined R s₀ t₀

section Running

variable {R : Value → Value → Prop} {s₀ t₀ s t s' t' : Store} {a a' b b' v w : Value} {r r' : NodeRef}

namespace Joined

theorem mono (h : Joined R s₀ t₀ s v w) (hs : s.Extends s') : Joined R s₀ t₀ s' v w := by
  cases h with
  | known h => exact .known h
  | made h hv => exact .made h (hs.has hv)

/-- No run makes nodes. -/
theorem node (h : Joined R s₀ t₀ s (.node r) (.node r')) : R (.node r) (.node r') := by
  cases h with
  | known h => exact h
  | made h => exact h.elim

theorem sort (hR : Counterparts R s₀ t₀) (h : Joined R s₀ t₀ s v w) : v.SameSort w := by
  cases h with
  | known h => exact hR.sort h
  | made h => exact h.sort

/-- What goes together is one cell in both runs or in none, unless it is from before. -/
theorem same_or (hR : Counterparts R s₀ t₀) (ha : Joined R s₀ t₀ s a a')
    (hb : Joined R s₀ t₀ s b b') : a'.sameCell b' = a.sameCell b ∨ R a a' ∧ R b b' := by
  have hsame : (_ → _ → (a = b ↔ a' = b')) → a'.sameCell b' = a.sameCell b :=
    (ha.sort hR).sameCell_eq
  cases ha with
  | known ha =>
    cases hb with
    | known hb => exact .inr ⟨ha, hb⟩
    | made hb =>
      exact .inl (hsame fun _ _ => ⟨fun e => absurd (e ▸ hR.has ha) hb.not_has,
        fun e => absurd (e ▸ hR.has_mate ha) hb.not_has_mate⟩)
  | made ha =>
    cases hb with
    | known hb =>
      exact .inl (hsame fun _ _ => ⟨fun e => absurd (e ▸ hR.has hb) ha.not_has,
        fun e => absurd (e ▸ hR.has_mate hb) ha.not_has_mate⟩)
    | made hb =>
      refine .inl (hsame fun _ _ => ⟨?_, ?_⟩)
      · rintro rfl
        exact hb.eq_of_left ha
      · rintro rfl
        exact hb.symm.eq_of_left ha.symm

end Joined

namespace Counterparts

variable (hR : Counterparts R s₀ t₀)

include hR

/-- What a known value holds is in the store. -/
theorem has_reached (hv : R v w) {u : Value} (hu : Reaches s₀.parts v u) : s₀.Has u := by
  obtain ⟨u', hu'⟩ := hR.toMates.reached hv hu
  exact hR.has hu'

/-- What stays equal to itself goes on to do so. -/
theorem inert (hs : s₀.Extends s) (hv : R v w) (h : s₀.Inert v) : s.Inert v := by
  intro u hu
  have hu : Reaches s₀.parts v u := hu.closed (.refl v) fun x _ hx y hy => by
    rw [hs.parts (hR.has_reached hv hx)] at hy
    exact hx.below hy
  obtain ⟨hnode, hself⟩ := h u hu
  refine ⟨hnode, fun hscalar => ?_⟩
  rw [equal, depthBound, equalTo_of_scalar hscalar s₀.size]
  exact hself hscalar

/-- What has been added to the first store makes no difference, if the second has as much in it. -/
theorem extend (hs : s₀.Extends s) (hdepth : s.depthBound ≤ t₀.depthBound)
    (hplaces : t₀.argOrders.size = t₀.nodes.size) (horder : ∀ r, s.argOrder r = s₀.argOrder r) :
    Counterparts R s t₀ where
  scalar := hR.scalar
  sort := hR.sort
  list hv := by
    rw [show s.list _ = s₀.list _ from hs.agree (hR.has hv)]
    exact hR.list hv
  tuple hv := by
    rw [show s.tuple _ = s₀.tuple _ from hs.agree (hR.has hv)]
    exact hR.tuple hv
  dict hv := by
    rw [show s.dict _ = s₀.dict _ from hs.agree (hR.has hv)]
    exact hR.dict hv
  node hv := by
    rw [hs.node (hR.has hv)]
    exact hR.node hv
  same ha hb := (hR.same ha hb).imp_right fun ⟨hab, hinert⟩ => ⟨hab, hR.inert hs ha hinert⟩
  ends hv := ((hR.ends hv).congr fun _ hu => hs.parts (hR.has_reached hv hu)).mono
    (Nat.succ_le_succ hs.outlives.size_le)
  depth := hdepth
  has hv := hs.has (hR.has hv)
  has_mate := hR.has_mate
  places hv _ := hplaces ▸ hR.has_mate hv
  order hv := by
    rw [horder, hs.node (hR.has hv)]
    exact hR.order hv

/-- What goes together is one cell in both runs or in none, but for what stays equal to itself. -/
theorem same_joined (hs : s₀.Extends s') (ha : Joined R s₀ t₀ s a a')
    (hb : Joined R s₀ t₀ s b b') : a'.sameCell b' = a.sameCell b ∨ a = b ∧ s'.Inert a :=
  (ha.same_or hR hb).elim .inl fun ⟨ha, hb⟩ =>
    (hR.same ha hb).imp_right fun ⟨hab, hinert⟩ => ⟨hab, hR.inert hs ha hinert⟩

end Counterparts

namespace Parallel

/-- Before the runs. -/
theorem start (hR : Counterparts R s₀ t₀) : Parallel R s₀ t₀ s₀ t₀ where
  first := .refl
  second := .refl
  nodes := rfl
  lists := Nat.add_comm _ _
  tuples := Nat.add_comm _ _
  dicts := Nat.add_comm _ _
  mates := by
    have hjoined : Joined R s₀ t₀ s₀ = R := by
      funext v w
      refine propext ⟨fun h => ?_, .known⟩
      cases h with
      | known h => exact h
      | made h hv => exact absurd hv h.not_has
    rw [hjoined]
    exact hR.toMates
  places := hR.places
  order := hR.order

variable (hR : Counterparts R s₀ t₀) (h : Parallel R s₀ t₀ s t)

include hR h

theorem has (hv : Joined R s₀ t₀ s v w) : s.Has v := by
  cases hv with
  | known hv => exact h.first.has (hR.has hv)
  | made _ hv => exact hv

omit hR in
theorem node_eq {r : NodeRef} (hr : s₀.Has (.node r)) : s.node r = s₀.node r := h.first.node hr

/-- A run on a well-formed store leaves it well-formed. -/
theorem wellFormed (hs₀ : s₀.WellFormed) : s.WellFormed := by
  have hold : ∀ r, ¬ s₀.Between s (.node r) := fun r hr => hr.1 (by
    have hr := hr.2
    rwa [Has, h.nodes] at hr)
  refine hs₀.of_extends h.first (fun v hv p hp => ?_) fun r hr => absurd hr (hold r)
  obtain ⟨w, hw⟩ : ∃ w, Minted s₀ t₀ v w := Minted.exists_mate hv fun r e => hold r (e ▸ hv)
  have hlinks : s.links v = s.parts v := by cases v <;> first | rfl | exact absurd hv (hold _)
  obtain ⟨q, -, hpq⟩ := exists_partner (h.mates.parts (.made hw hv.2)) p (hlinks ▸ hp)
  exact h.has hR hpq

/-- The second run has made what goes together with what the first one has. -/
theorem has_mate (hv : Joined R s₀ t₀ s v w) : t.Has w := by
  cases hv with
  | known hv => exact h.second.has (hR.has_mate hv)
  | made hmade hv =>
    have hlists := h.lists
    have htuples := h.tuples
    have hdicts := h.dicts
    cases v <;> cases w <;> simp only [Minted, Has] at hmade hv ⊢ <;> omega

/-- What has come behind the second run since then makes no difference. -/
theorem mates_later (he : t.Extends t') : Mates (Joined R s₀ t₀ s) s t' :=
  have hmate : ∀ {v w}, Joined R s₀ t₀ s v w → t.Agree t' w := fun hv => he.agree (h.has_mate hR hv)
  { h.mates with
    list := fun hv => (show t'.list _ = t.list _ from hmate hv) ▸ h.mates.list hv
    tuple := fun hv => (show t'.tuple _ = t.tuple _ from hmate hv) ▸ h.mates.tuple hv
    dict := fun hv => (show t'.dict _ = t.dict _ from hmate hv) ▸ h.mates.dict hv
    node := fun hv => (show t'.node _ = t.node _ from hmate hv) ▸ h.mates.node hv
    depth := Nat.le_trans h.mates.depth (Nat.succ_le_succ he.outlives.size_le) }

/-- What goes together ends as before when a cell has been added. -/
theorem ends_later (hs : s.Extends s') (hv : Joined R s₀ t₀ s v w) :
    EndsWithin s'.parts s.depthBound v :=
  (h.mates.ends hv).congr fun _ hu =>
    have ⟨_, hu'⟩ := h.mates.reached hv hu
    hs.parts (h.has hR hu')

section Growth

variable {x y : Value} (hs : s.Extends s') (ht : t.Extends t') (hnodes : s'.nodes = s.nodes)
  (hsize : s.size < s'.size) (hx : ∀ v, s.Between s' v → v = x)
  (hxy : ∀ w, Minted s₀ t₀ x w → w = y)
  (hparts : List.Forall₂ (Joined R s₀ t₀ s) (s'.parts x) (t'.parts y))
  (hkeys : ∀ a b, x = .dict a → y = .dict b → (t'.dict b).keys = (s'.dict a).keys)
  (hdepth : s'.depthBound ≤ t'.depthBound)

include hs ht hsize hx hxy hparts hkeys hdepth

/-- With a cell added on both sides, and the same in it, things still go together. -/
theorem mates_grow : Mates (Joined R s₀ t₀ s') s' t' := by
  -- what goes together has done so before, or is what has been added
  have hcases : ∀ {v w}, Joined R s₀ t₀ s' v w → Joined R s₀ t₀ s v w ∨ v = x ∧ w = y := by
    intro v w hvw
    cases hvw with
    | known hvw => exact .inl (.known hvw)
    | made hmade hv =>
      by_cases hold : s.Has v
      · exact .inl (.made hmade hold)
      · obtain rfl := hx v ⟨hold, hv⟩
        exact .inr ⟨rfl, hxy w hmade⟩
  have hnode : ∀ {r r'}, Joined R s₀ t₀ s' (.node r) (.node r') →
      Joined R s₀ t₀ s (.node r) (.node r') := fun hr => .known hr.node
  have hmono : ∀ {xs ys : List Value}, List.Forall₂ (Joined R s₀ t₀ s) xs ys →
      List.Forall₂ (Joined R s₀ t₀ s') xs ys := fun hall => hall.imp fun _ _ hp => hp.mono hs
  have hagree : ∀ {v w}, Joined R s₀ t₀ s v w → s.Agree s' v ∧ t.Agree t' w := fun hv =>
    ⟨hs.agree (h.has hR hv), ht.agree (h.has_mate hR hv)⟩
  have hlevels : s.depthBound + 1 ≤ s'.depthBound := by simp only [depthBound]; omega
  refine
    { scalar := fun hv => .known (hR.scalar hv)
      sort := fun hv => ?_
      list := fun {a b} hv => ?_
      tuple := fun {a b} hv => ?_
      dict := fun {a b} hv => ?_
      node := fun {a b} hv => ?_
      same := fun ha hb => ?_
      ends := fun {v w} hv => ?_
      depth := hdepth }
  · exact hv.sort hR
  · rcases hcases hv with hv | ⟨rfl, rfl⟩
    · rw [show s'.list a = s.list a from (hagree hv).1, show t'.list b = t.list b from (hagree hv).2]
      exact hmono (h.mates.list hv)
    · exact hmono hparts
  · rcases hcases hv with hv | ⟨rfl, rfl⟩
    · rw [show s'.tuple a = s.tuple a from (hagree hv).1,
        show t'.tuple b = t.tuple b from (hagree hv).2]
      exact hmono (h.mates.tuple hv)
    · exact hmono hparts
  · rcases hcases hv with hv | ⟨rfl, rfl⟩
    · rw [show s'.dict a = s.dict a from (hagree hv).1, show t'.dict b = t.dict b from (hagree hv).2]
      exact (h.mates.dict hv).imp fun _ _ hp => hp.mono hs
    · exact ⟨hkeys a b rfl rfl, hmono hparts⟩
  · have hv := hnode hv
    rw [show s'.node a = s.node a from (hagree hv).1, show t'.node b = t.node b from (hagree hv).2]
    exact (h.mates.node hv).imp fun _ _ hp => hp.mono hs
  · exact hR.same_joined (h.first.trans hs) ha hb
  · rcases hcases hv with hv | ⟨rfl, -⟩
    · exact (h.ends_later hR hs hv).mono (Nat.le_of_succ_le hlevels)
    · have hbelow : EndsWithin s'.parts (s.depthBound + 1) v := by
        intro p hp
        obtain ⟨q, -, hpq⟩ := exists_partner hparts p hp
        exact h.ends_later hR hs hpq
      exact hbelow.mono hlevels

omit hdepth
include hnodes

/-- Both runs add a cell, with the same in it. -/
theorem grow (hlists : t'.lists.size + s₀.lists.size = s'.lists.size + t₀.lists.size)
    (htuples : t'.tuples.size + s₀.tuples.size = s'.tuples.size + t₀.tuples.size)
    (hdicts : t'.dicts.size + s₀.dicts.size = s'.dicts.size + t₀.dicts.size)
    (horders : s'.argOrders = s.argOrders) (horders' : t'.argOrders = t.argOrders) :
    Parallel R s₀ t₀ s' t' where
  first := h.first.trans hs
  second := h.second.trans ht
  nodes := hnodes.trans h.nodes
  lists := hlists
  tuples := htuples
  dicts := hdicts
  mates := by
    refine h.mates_grow hR hs ht hsize hx hxy hparts hkeys ?_
    have hnodes' := ht.outlives.nodes_le
    have hbefore := h.mates.depth
    have hlists₀ := h.lists
    have htuples₀ := h.tuples
    have hdicts₀ := h.dicts
    simp only [depthBound, size, hnodes] at hbefore ⊢
    omega
  places hr := by rw [horders, horders']; exact h.places hr
  order hr := by rw [argOrder, argOrder, horders, horders']; exact h.order hr

end Growth

/-- The second run remembers what the first one comes to remember, if not more. -/
theorem remember (hr : R (.node r) (.node r')) {keys : List String} (hnone : s.argOrder r = none)
    (hkeys : argumentOrder (s₀.node r).children.keys = .ok keys)
    (ht : t' = t.setArgOrder r' keys ∨ t' = t ∧ t.argOrder r' = some keys) :
    Parallel R s₀ t₀ (s.setArgOrder r keys) t' := by
  have hcells : t' = { t with argOrders := t'.argOrders } := by
    rcases ht with rfl | ⟨rfl, -⟩ <;> rfl
  have hsize : t'.argOrders.size = t.argOrders.size := by
    rcases ht with rfl | ⟨rfl, -⟩
    exacts [Array.size_setIfInBounds, rfl]
  have hself : r.index < s.argOrders.size → t'.argOrder r' = some keys := fun hlt => by
    rcases ht with rfl | ⟨rfl, ht⟩
    exacts [argOrder_setArgOrder_self (h.places hr hlt) keys, ht]
  have hother : ∀ q, t'.argOrder q = t.argOrder q ∨ q = r' ∧ t'.argOrder q = some keys := fun q => by
    rcases ht with rfl | ⟨rfl, ht⟩
    exacts [t.argOrder_setArgOrder r' keys q, .inl rfl]
  have hjoined : Joined R s₀ t₀ (s.setArgOrder r keys) = Joined R s₀ t₀ s := by
    funext v w
    refine propext ⟨fun hvw => ?_, fun hvw => hvw.mono (extends_setArgOrder r keys)⟩
    cases hvw with
    | known hvw => exact .known hvw
    | made hmade hv => exact .made hmade hv
  refine
    { first := h.first
      second := ?_
      nodes := h.nodes
      lists := ?_
      tuples := ?_
      dicts := ?_
      mates := ?_
      places := fun hq hlt => ?_
      order := fun {q q'} hq => ?_ }
  · rw [hcells]
    exact h.second
  · rw [hcells]
    exact h.lists
  · rw [hcells]
    exact h.tuples
  · rw [hcells]
    exact h.dicts
  · rw [hcells, hjoined]
    exact { h.mates with
      same := fun ha hb => hR.same_joined (h.first.trans (extends_setArgOrder r keys)) ha hb }
  · rw [hsize]
    exact h.places hq (Nat.lt_of_lt_of_eq hlt Array.size_setIfInBounds)
  · have hsame := hR.nodes_same hr hq
    rcases s.argOrder_setArgOrder r keys q with e | ⟨rfl, e⟩
    · rw [e]
      rcases hother q' with e' | ⟨rfl, e'⟩
      · rw [e']
        exact h.order hq
      · obtain rfl := hsame.mpr rfl
        exact .inr ⟨hnone, keys, e', hkeys⟩
    · obtain rfl := hsame.mp rfl
      refine .inl ((hself ?_).trans e.symm)
      by_contra hlt
      simp [setArgOrder, argOrder, Array.getD, hlt] at e

end Parallel

/-! ### The laws -/

namespace Parallel

variable (hR : Counterparts R s₀ t₀) (h : Parallel R s₀ t₀ s t)

include hR h

theorem newList {l l' : List Value} (hl : List.Forall₂ (Joined R s₀ t₀ s) l l') :
    Parallel R s₀ t₀ (s.newList l).2 (t.newList l').2 ∧
      Joined R s₀ t₀ (s.newList l).2 (s.newList l).1 (t.newList l').1 := by
  have hfirst := h.first.outlives.lists_le
  have hsizes := h.lists
  have hs : (s.newList l).2.list (s.allocList l).1 = l := list_allocList l
  have ht : (t.newList l').2.list (t.allocList l').1 = l' := list_allocList l'
  have hhere : Minted s₀ t₀ (s.newList l).1 (t.newList l').1 := ⟨hfirst, hsizes⟩
  have hhas : (s.newList l).2.Has (s.newList l).1 := by
    show _ < Array.size _
    simp [Store.newList, allocList]
  refine ⟨h.grow hR (extends_allocList l) (extends_allocList l') rfl ?_ (x := (s.newList l).1)
    (y := (t.newList l').1) (fun v hv => between_allocList hv) (fun w hw => ?_) ?_
    (by rintro _ _ ⟨⟩) ?_ h.tuples h.dicts rfl rfl, .made hhere hhas⟩
  · simp only [size, Store.newList, allocList, Array.size_push]
    omega
  · exact hhere.eq_of_left hw
  · rwa [show (s.newList l).2.parts (s.newList l).1 = l from hs,
      show (t.newList l').2.parts (t.newList l').1 = l' from ht]
  · simp only [Store.newList, allocList, Array.size_push]
    omega

theorem newTuple {l l' : List Value} (hl : List.Forall₂ (Joined R s₀ t₀ s) l l') :
    Parallel R s₀ t₀ (s.newTuple l).2 (t.newTuple l').2 ∧
      Joined R s₀ t₀ (s.newTuple l).2 (s.newTuple l).1 (t.newTuple l').1 := by
  have hfirst := h.first.outlives.tuples_le
  have hsizes := h.tuples
  have hs : (s.newTuple l).2.tuple (s.allocTuple l).1 = l := tuple_allocTuple l
  have ht : (t.newTuple l').2.tuple (t.allocTuple l').1 = l' := tuple_allocTuple l'
  have hhere : Minted s₀ t₀ (s.newTuple l).1 (t.newTuple l').1 := ⟨hfirst, hsizes⟩
  have hhas : (s.newTuple l).2.Has (s.newTuple l).1 := by
    show _ < Array.size _
    simp [Store.newTuple, allocTuple]
  refine ⟨h.grow hR (extends_allocTuple l) (extends_allocTuple l') rfl ?_ (x := (s.newTuple l).1)
    (y := (t.newTuple l').1) (fun v hv => between_allocTuple hv) (fun w hw => ?_) ?_
    (by rintro _ _ ⟨⟩) h.lists ?_ h.dicts rfl rfl, .made hhere hhas⟩
  · simp only [size, Store.newTuple, allocTuple, Array.size_push]
    omega
  · exact hhere.eq_of_left hw
  · rwa [show (s.newTuple l).2.parts (s.newTuple l).1 = l from hs,
      show (t.newTuple l').2.parts (t.newTuple l').1 = l' from ht]
  · simp only [Store.newTuple, allocTuple, Array.size_push]
    omega

theorem newDict {d d' : Entries Value} (hd : d.Related (Joined R s₀ t₀ s) d') :
    Parallel R s₀ t₀ (s.newDict d).2 (t.newDict d').2 ∧
      Joined R s₀ t₀ (s.newDict d).2 (s.newDict d).1 (t.newDict d').1 := by
  have hfirst := h.first.outlives.dicts_le
  have hsizes := h.dicts
  have hs : (s.newDict d).2.dict (s.allocDict d).1 = d := dict_allocDict d
  have ht : (t.newDict d').2.dict (t.allocDict d').1 = d' := dict_allocDict d'
  have hhere : Minted s₀ t₀ (s.newDict d).1 (t.newDict d').1 := ⟨hfirst, hsizes⟩
  have hhas : (s.newDict d).2.Has (s.newDict d).1 := by
    show _ < Array.size _
    simp [Store.newDict, allocDict]
  refine ⟨h.grow hR (extends_allocDict d) (extends_allocDict d') rfl ?_ (x := (s.newDict d).1)
    (y := (t.newDict d').1) (fun v hv => between_allocDict hv) (fun w hw => ?_) ?_
    (fun a b ha hb => ?_) h.lists h.tuples ?_ rfl rfl, .made hhere hhas⟩
  · simp only [size, Store.newDict, allocDict, Array.size_push]
    omega
  · exact hhere.eq_of_left hw
  · rw [show (s.newDict d).2.parts (s.newDict d).1 = d.values from congrArg Entries.values hs,
      show (t.newDict d').2.parts (t.newDict d').1 = d'.values from congrArg Entries.values ht]
    exact hd.values
  · obtain rfl := Value.dict.inj ha
    obtain rfl := Value.dict.inj hb
    exact (congrArg Entries.keys ht).trans (hd.keys.trans (congrArg Entries.keys hs).symm)
  · simp only [Store.newDict, allocDict, Array.size_push]
    omega

/-- Both runs go through the arguments of an expression in the same order. -/
theorem arguments (hr : Joined R s₀ t₀ s (.node r) (.node r')) :
    (Correspondence.parallel R s₀ t₀).InStep s
      (fun s' => List.Forall₂ ((Correspondence.parallel R s₀ t₀).Paired s'))
      (orderedArguments r s) (orderedArguments r' t) := by
  have hr' := hr.node
  have hnode : s.node r = s₀.node r := h.first.node (hR.has hr')
  have hkeys : (t.node r').children.keys = (s.node r).children.keys :=
    ((h.mates.node hr).entries .children).keys
  have hpaired : ∀ {s'}, s.Extends s' → ∀ keys, List.Forall₂
      ((Correspondence.parallel R s₀ t₀).Paired s') ((s.node r).arguments keys)
      ((t.node r').arguments keys) := fun hs keys =>
    ((h.mates.node hr).imp fun _ _ hp => hp.mono hs).arguments keys
  have horder := h.order hr'
  rw [← hnode] at horder
  rcases orderedArguments_cases s r with ⟨keys, hknown, e⟩ | ⟨keys, hnone, hnew, e⟩ |
    ⟨fault, hnone, hfault, e⟩ <;>
  rcases orderedArguments_cases t r' with ⟨keys', hknown', e'⟩ | ⟨keys', hnone', hnew', e'⟩ |
    ⟨fault', hnone', hfault', e'⟩ <;> rw [e, e']
  · obtain rfl : keys' = keys := by
      rcases horder with ho | ⟨hnone, -⟩
      · exact Option.some.inj (hknown'.symm.trans (ho.trans hknown))
      · cases hknown.symm.trans hnone
    exact .done (.refl s) h (hpaired .refl _)
  · rcases horder with ho | ⟨hnone, -⟩
    · cases hknown.symm.trans (ho.symm.trans hnone')
    · cases hknown.symm.trans hnone
  · rcases horder with ho | ⟨hnone, -⟩
    · cases hknown.symm.trans (ho.symm.trans hnone')
    · cases hknown.symm.trans hnone
  · obtain rfl : keys' = keys := by
      rcases horder with ho | ⟨-, keys₁, hknown₁, hnew₁⟩
      · cases hknown'.symm.trans (ho.trans hnone)
      · obtain rfl := Option.some.inj (hknown'.symm.trans hknown₁)
        exact Except.ok.inj (hnew₁.symm.trans hnew)
    refine .done (later_setArgOrder hnone hnew)
      (h.remember hR hr' hnone ?_ (.inr ⟨rfl, hknown'⟩)) (hpaired (extends_setArgOrder _ _) _)
    rwa [← hnode]
  · rw [hkeys] at hnew'
    obtain rfl := Except.ok.inj (hnew.symm.trans hnew')
    refine .done (later_setArgOrder hnone hnew)
      (h.remember hR hr' hnone ?_ (.inl rfl)) (hpaired (extends_setArgOrder _ _) _)
    rwa [← hnode]
  · rw [hkeys] at hfault'
    cases hnew.symm.trans hfault'
  · rcases horder with ho | ⟨-, keys₁, hknown₁, hnew₁⟩
    · cases hknown'.symm.trans (ho.trans hnone)
    · cases hnew₁.symm.trans hfault
  · rw [hkeys] at hnew'
    cases hfault.symm.trans hnew'
  · rw [hkeys] at hfault'
    cases hfault.symm.trans hfault'
    exact .failed (.refl s) h (tame_argumentOrder _ _ hfault)

end Parallel

theorem parallel_lawful (hR : Counterparts R s₀ t₀) : (Correspondence.parallel R s₀ t₀).Lawful where
  later hv hs := hv.mono hs.cells
  scalar _ hv := .known (hR.scalar hv)
  sort hv := hv.sort hR
  same ha hb := hR.nodes_same ha.node hb.node
  nodes h hr := h.mates.node hr
  list h hab := h.mates.list hab
  tuple h hab := h.mates.tuple hab
  dict h hab := h.mates.dict hab
  newList h hl := h.newList hR hl
  newTuple h hl := h.newTuple hR hl
  newDict h hd := h.newDict hR hd
  arguments h hr := h.arguments hR hr
  segments h hv := h.mates.segments_eq hv
  equal h ha hb := h.mates.equal_eq ha hb
  order rel h ha hb := h.mates.order_eq rel ha hb
  text h hv := h.mates.shownText_eq hv
  parent h hr hroot := h.mates.findParent_matches hr hroot

end Running

end LiveTree
