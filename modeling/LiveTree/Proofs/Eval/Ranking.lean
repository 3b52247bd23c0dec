import LiveTree.Proofs.Eval.Comparison
import LiveTree.Proofs.Runs.Mates

/-! How one value stands to another. All four order relations read off one comparison in three ways,
by which one value is below, beside or above another, or in no relation to it. Comparing the other
way round turns it over, values that are equal are beside each other if they compare at all, and
cells that are added later make no difference. -/

namespace LiveTree

/-! ### Three ways -/

/-- How one thing stands to another, by whether it is below and whether it is beside it. -/
def standing (below equal : Bool) : Ordering := if below then .lt else if equal then .eq else .gt

/-- Whether exactly one of three holds: that one thing is below another, beside it, or above it. -/
inductive Exclusive : Bool → Bool → Bool → Prop
  | below : Exclusive true false false
  | equal : Exclusive false true false
  | above : Exclusive false false true

namespace Exclusive

variable {below equal above : Bool}

theorem standing_flip (h : Exclusive below equal above) :
    standing above equal = (standing below equal).swap := by
  cases h <;> rfl

theorem standing_of_equal (h : Exclusive below true above) : standing below true = .eq := by
  cases h
  rfl

theorem positions (p q : Number.Position) : Exclusive (p.lt q) (decide (p = q)) (q.lt p) := by
  rcases p.lt_trichotomy q with h | rfl | h
  · have hne : p ≠ q := by
      rintro rfl
      simp [Number.Position.lt_irrefl] at h
    rw [h, decide_eq_false hne, Number.Position.lt_asymm h]
    exact .below
  · simp only [Number.Position.lt_irrefl, decide_true]
    exact .equal
  · have hne : p ≠ q := by
      rintro rfl
      simp [Number.Position.lt_irrefl] at h
    rw [h, decide_eq_false hne, Number.Position.lt_asymm h]
    exact .above

theorem texts (x y : String) :
    Exclusive (decide (x < y)) (decide (x = y)) (decide (y < x)) := by
  by_cases hlt : x < y
  · have hne : x ≠ y := fun h => String.lt_irrefl y (h ▸ hlt)
    simp only [hlt, hne, String.lt_asymm hlt, decide_true, decide_false]
    exact .below
  · by_cases hgt : y < x
    · have hne : x ≠ y := fun h => String.lt_irrefl y (h ▸ hgt)
      simp only [hlt, hne, hgt, decide_true, decide_false]
      exact .above
    · have heq : x = y := String.le_antisymm (String.not_lt.mp hgt) (String.not_lt.mp hlt)
      simp only [heq, String.lt_irrefl, decide_true, decide_false]
      exact .equal

theorem lengths (m n : ℕ) : Exclusive (decide (m < n)) (decide (m = n)) (decide (n < m)) := by
  rcases Nat.lt_trichotomy m n with h | rfl | h
  · simp only [h, Nat.ne_of_lt h, Nat.lt_asymm h, decide_true, decide_false]
    exact .below
  · simp only [Nat.lt_irrefl, decide_true, decide_false]
    exact .equal
  · simp only [h, Nat.ne_of_gt h, Nat.lt_asymm h, decide_true, decide_false]
    exact .above

end Exclusive

namespace Text

/-- How one text stands to another. -/
def rank (x y : String) : Ordering := standing (decide (x < y)) (decide (x = y))

theorem rank_swap (x y : String) : rank y x = (rank x y).swap := by
  rw [rank, rank, ← (Exclusive.texts x y).standing_flip, decide_eq_decide.mpr eq_comm]

theorem rank_self (x : String) : rank x x = .eq := by
  rw [rank, decide_eq_false (String.lt_irrefl x), decide_eq_true rfl]
  rfl

end Text

namespace Number.Scalar

variable {a b : Scalar}

/-- How one number stands to another, if both have a position. -/
def rank (a b : Scalar) : Option Ordering :=
  if a.position?.isSome && b.position?.isSome then some (standing (a.below b) (a.equal b)) else none

/-- Numbers with positions are in one relation exactly. -/
theorem exclusive (ha : a.position?.isSome = true) (hb : b.position?.isSome = true) :
    Exclusive (a.below b) (a.equal b) (b.below a) := by
  obtain ⟨p, hp⟩ := Option.isSome_iff_exists.mp ha
  obtain ⟨q, hq⟩ := Option.isSome_iff_exists.mp hb
  simp only [below, equal, hp, hq]
  exact .positions p q

theorem rank_swap (a b : Scalar) : b.rank a = (a.rank b).map Ordering.swap := by
  unfold rank
  rw [Bool.and_comm, equal_comm b a]
  split
  · rename_i h
    rw [Bool.and_eq_true] at h
    exact congrArg some (exclusive h.1 h.2).standing_flip
  · rfl

theorem rank_of_equal (h : a.equal b = true) {o : Ordering} (ho : a.rank b = some o) : o = .eq := by
  unfold rank at ho
  split at ho
  · rename_i hpositions
    rw [Bool.and_eq_true] at hpositions
    have hexclusive := exclusive hpositions.1 hpositions.2
    rw [h] at hexclusive ho
    exact (Option.some.inj ho).symm.trans hexclusive.standing_of_equal
  · cases ho

end Number.Scalar

namespace Relation

/-- The relation the other way round. -/
def swap : Relation → Relation
  | lt => gt
  | le => ge
  | gt => lt
  | ge => le

/-- Whether a relation holds, by how one value stands to the other. -/
def admits (rel : Relation) (o : Ordering) : Bool := rel.holds o.isLT o.isEq o.isGT

variable (rel : Relation)

theorem any_admits_swap (o : Option Ordering) :
    (o.map Ordering.swap).any rel.swap.admits = o.any rel.admits := by
  rcases o with _ | o
  · rfl
  · cases rel <;> cases o <;> rfl

theorem holds_eq {below equal above : Bool} (h : Exclusive below equal above) :
    rel.holds below equal above = rel.admits (standing below equal) := by
  cases h <;> rfl

theorem scalars_eq (a b : Number.Scalar) : rel.scalars a b = (a.rank b).any rel.admits := by
  unfold scalars Number.Scalar.rank
  by_cases h : a.position?.isSome = true ∧ b.position?.isSome = true
  · rw [rel.holds_eq (Number.Scalar.exclusive h.1 h.2)]
    simp [h]
  · have hnone : a.position? = none ∨ b.position? = none := by
      cases ha : a.position? <;> cases hb : b.position? <;> simp_all
    rcases hnone with h | h <;>
      cases rel <;> simp [Number.Scalar.below, Number.Scalar.equal, h, holds]

end Relation

namespace Store

variable {s t : Store} {rel : Relation} {v w : Value} {n m : ℕ}

/-- How one sequence stands to another: the first pair that is not equal decides, else the lengths. -/
def rankSequences (eq : Value → Value → Except Fault Bool)
    (rank : Value → Value → Option Ordering) : List Value → List Value → Option Ordering
  | a :: as, b :: bs => if eq a b = .ok true then rankSequences eq rank as bs else rank a b
  | as, bs => some (standing (decide (as.length < bs.length)) (decide (as.length = bs.length)))

/-- How one value stands to another, to a given depth, if they are in a relation at all. -/
def rankTo (s : Store) : ℕ → Value → Value → Option Ordering
  | 0, _, _ => none
  | n + 1, v, w =>
    match v.scalar?, w.scalar? with
    | some x, some y => x.rank y
    | _, _ =>
      match v, w with
      | .str x, .str y => some (Text.rank x y)
      | .list x, .list y => rankSequences (s.equalTo n) (s.rankTo n) (s.list x) (s.list y)
      | .tuple x, .tuple y => rankSequences (s.equalTo n) (s.rankTo n) (s.tuple x) (s.tuple y)
      | _, _ => none

section Sequences

variable {eq order : Value → Value → Except Fault Bool} {rank : Value → Value → Option Ordering}
  {as bs : List Value}

theorem orderSequences_eq (heq : ∀ a ∈ as, ∀ b, ∃ found, eq a b = .ok found)
    (horder : ∀ a ∈ as, ∀ b, lenient (order a b) = .ok ((rank a b).any rel.admits))
    (bs : List Value) : lenient (orderSequences eq order rel as bs) =
      .ok ((rankSequences eq rank as bs).any rel.admits) := by
  have hlengths : ∀ as bs : List Value, lenient (.ok (rel.lengths as.length bs.length)) =
      .ok ((some (standing (decide (as.length < bs.length))
        (decide (as.length = bs.length)))).any rel.admits) := by
    intro as bs
    rw [Relation.lengths, rel.holds_eq (.lengths _ _)]
    rfl
  induction as generalizing bs with
  | nil => cases bs <;> exact hlengths _ _
  | cons a as ih =>
    obtain ⟨ha, has⟩ := List.forall_mem_cons.mp heq
    obtain ⟨ha', has'⟩ := List.forall_mem_cons.mp horder
    cases bs with
    | nil => exact hlengths _ _
    | cons b bs =>
      obtain ⟨found, hfound⟩ := ha b
      rw [orderSequences, rankSequences, hfound]
      cases found with
      | true =>
        rw [if_pos rfl]
        exact ih has has' bs
      | false =>
        have hne : (Except.ok false : Except Fault Bool) ≠ .ok true := by
          rintro ⟨⟩
        rw [if_neg hne]
        exact ha' b

theorem rankSequences_swap (heq : ∀ a ∈ as, ∀ b ∈ bs, eq b a = eq a b)
    (hrank : ∀ a ∈ as, ∀ b ∈ bs, rank b a = (rank a b).map Ordering.swap) :
    rankSequences eq rank bs as = (rankSequences eq rank as bs).map Ordering.swap := by
  have hlengths : ∀ as bs : List Value,
      standing (decide (bs.length < as.length)) (decide (bs.length = as.length)) =
        (standing (decide (as.length < bs.length)) (decide (as.length = bs.length))).swap := by
    intro as bs
    rw [← (Exclusive.lengths as.length bs.length).standing_flip, decide_eq_decide.mpr eq_comm]
  induction as generalizing bs with
  | nil => cases bs <;> exact congrArg some (hlengths _ _)
  | cons a as ih =>
    cases bs with
    | nil => exact congrArg some (hlengths _ _)
    | cons b bs =>
      rw [rankSequences, rankSequences, heq a List.mem_cons_self b List.mem_cons_self]
      split
      · exact ih (fun a ha b hb => heq a (List.mem_cons_of_mem _ ha) b (List.mem_cons_of_mem _ hb))
          fun a ha b hb => hrank a (List.mem_cons_of_mem _ ha) b (List.mem_cons_of_mem _ hb)
      · exact hrank a List.mem_cons_self b List.mem_cons_self

/-- Sequences that are equal place by place are beside each other. -/
theorem rankSequences_of_equal (h : List.Forall₂ (fun a b => eq a b = .ok true) as bs) :
    rankSequences eq rank as bs = some .eq := by
  induction h with
  | nil => rfl
  | cons hab _ ih => rw [rankSequences, if_pos hab, ih]

end Sequences

/-! ### Equality -/

section Equality

variable {eq : Value → Value → Except Fault Bool} {as bs : List Value} {a b : Entries Value}

theorem forall₂_of_allEqual (h : allEqual eq as bs = .ok true) :
    List.Forall₂ (fun a b => eq a b = .ok true) as bs := by
  induction as generalizing bs with
  | nil =>
    cases bs with
    | nil => exact .nil
    | cons b bs => cases h
  | cons a as ih =>
    cases bs with
    | nil => cases h
    | cons b bs =>
      rw [allEqual] at h
      cases hab : eq a b with
      | error e => rw [hab] at h; cases h
      | ok found =>
        rw [hab] at h
        cases found with
        | true => exact .cons hab (ih h)
        | false => cases h

theorem allEqual_comm (h : ∀ a ∈ as, ∀ b ∈ bs, eq b a = eq a b) :
    allEqual eq bs as = allEqual eq as bs := by
  induction as generalizing bs with
  | nil => cases bs <;> rfl
  | cons a as ih =>
    cases bs with
    | nil => rfl
    | cons b bs =>
      rw [allEqual, allEqual, h a List.mem_cons_self b List.mem_cons_self,
        ih fun a ha b hb => h a (List.mem_cons_of_mem _ ha) b (List.mem_cons_of_mem _ hb)]

theorem entriesEqual_decides {l : List (String × Value)} {other : Entries Value}
    (h : ∀ p ∈ l, ∀ y, ∃ found, eq p.2 y = .ok found) :
    Decides (entriesEqual eq other l)
      (∀ p ∈ l, ∃ y, other.get? p.1 = some y ∧ eq p.2 y = .ok true) := by
  induction l with
  | nil => exact .yes (by simp)
  | cons p rest ih =>
    obtain ⟨hfirst, hrest⟩ := List.forall_mem_cons.mp h
    rw [List.forall_mem_cons, entriesEqual]
    cases hy : other.get? p.1 with
    | none => exact .no (by simp)
    | some y =>
      obtain ⟨found, hfound⟩ := hfirst y
      have hself : Decides (eq p.2 y) (eq p.2 y = .ok true) := ⟨found, hfound, by simp [hfound]⟩
      exact (hself.and fun _ => ih hrest).congr (by simp)

/-- Dictionaries are equal when their names match and what stands under one name is equal. -/
theorem dictsEqual_decides (h : ∀ x ∈ a.values, ∀ y, ∃ found, eq x y = .ok found) :
    Decides (if a.size = b.size then entriesEqual eq b a.toList else .ok false)
      (Entries.Matched (fun x y => eq x y = .ok true) a.toList b.toList) := by
  split
  · rename_i hsize
    refine (entriesEqual_decides fun p hp => h p.2 (List.mem_map_of_mem hp)).congr ⟨?_, ?_⟩
    · intro hall
      have hnames : sameNames a b = true := by
        rw [sameNames, Bool.and_eq_true, decide_eq_true_iff, List.all_eq_true]
        refine ⟨hsize, fun k hk => ?_⟩
        obtain ⟨p, hp, rfl⟩ := List.mem_map.mp hk
        obtain ⟨y, hy, -⟩ := hall p hp
        rw [Entries.contains, hy]
        rfl
      refine ⟨Entries.sameNames_iff.mp hnames, fun {k x y} hx hy => ?_⟩
      obtain ⟨y', hy', hxy⟩ := hall (k, x) (Entries.mem_of_find_eq_some hx)
      obtain rfl := Option.some.inj (hy'.symm.trans hy)
      exact hxy
    · rintro hmatch ⟨k, x⟩ hp
      exact hmatch.exists_right (Entries.get?_eq_some_iff.mpr hp)
  · rename_i hsize
    refine .no fun hmatch => hsize ?_
    have hnames := Entries.sameNames_iff.mpr hmatch.names
    rw [sameNames, Bool.and_eq_true, decide_eq_true_iff] at hnames
    exact hnames.1

theorem dictsEqual_comm (ha : ∀ x ∈ a.values, ∀ y, ∃ found, eq x y = .ok found)
    (hb : ∀ y ∈ b.values, ∀ x, ∃ found, eq y x = .ok found)
    (h : ∀ x ∈ a.values, ∀ y ∈ b.values, eq y x = eq x y) :
    (if b.size = a.size then entriesEqual eq a b.toList else .ok false) =
      if a.size = b.size then entriesEqual eq b a.toList else .ok false := by
  refine (dictsEqual_decides hb).eq_of_iff (dictsEqual_decides ha)
    ⟨fun hmatch => hmatch.flip.imp fun p hp q hq hqp => ?_,
      fun hmatch => hmatch.flip.imp fun p hp q hq hqp => ?_⟩
  · exact (h _ (List.mem_map_of_mem hp) _ (List.mem_map_of_mem hq)).symm.trans hqp
  · exact (h _ (List.mem_map_of_mem hq) _ (List.mem_map_of_mem hp)).trans hqp

end Equality

/-- Equality goes both ways. -/
theorem equalTo_comm (hv : EndsWithin s.contents n v) (hw : EndsWithin s.contents n w) :
    s.equalTo n w v = s.equalTo n v w := by
  induction n generalizing v w with
  | zero => rfl
  | succ n ih =>
    have hcell : w.sameCell v = v.sameCell w := by
      cases v <;> cases w <;> simp [Value.sameCell, Value.cell?, eq_comm]
    have hbelow : ∀ a ∈ s.contents v, ∀ b ∈ s.contents w, s.equalTo n b a = s.equalTo n a b :=
      fun a ha b hb => ih (hv a ha) (hw b hb)
    unfold equalTo
    rw [hcell]
    refine if_congr Iff.rfl rfl ?_
    cases v <;> cases w
    case str.str x y => exact congrArg Except.ok (decide_eq_decide.mpr eq_comm)
    case list.list x y => exact allEqual_comm hbelow
    case tuple.tuple x y => exact allEqual_comm hbelow
    case dict.dict x y =>
      exact dictsEqual_comm (fun a ha => equalTo_returns (hv a ha))
        (fun b hb => equalTo_returns (hw b hb)) hbelow
    all_goals first | rfl | exact congrArg Except.ok (Number.Scalar.equal_comm _ _)

/-! ### Order -/

/-- Each order relation reads off how one value stands to the other. -/
theorem orderTo_eq (h : EndsWithin s.contents n v) (w : Value) :
    lenient (s.orderTo rel n v w) = .ok ((s.rankTo n v w).any rel.admits) := by
  induction n generalizing v w with
  | zero => exact h.elim
  | succ n ih =>
    have hbelow : ∀ a ∈ s.contents v, ∀ b,
        lenient (s.orderTo rel n a b) = .ok ((s.rankTo n a b).any rel.admits) :=
      fun a ha => ih (h a ha)
    have hequal : ∀ a ∈ s.contents v, ∀ b, ∃ found, s.equalTo n a b = .ok found :=
      fun a ha => equalTo_returns (h a ha)
    unfold orderTo rankTo
    cases v <;> cases w
    case str.str x y => exact congrArg Except.ok (rel.holds_eq (.texts x y))
    case list.list x y => exact orderSequences_eq hequal hbelow _
    case tuple.tuple x y => exact orderSequences_eq hequal hbelow _
    all_goals first | rfl | exact congrArg Except.ok (rel.scalars_eq _ _)

/-- Comparing the other way round turns the comparison over. -/
theorem rankTo_swap (hv : EndsWithin s.contents n v) (hw : EndsWithin s.contents n w) :
    s.rankTo n w v = (s.rankTo n v w).map Ordering.swap := by
  induction n generalizing v w with
  | zero => rfl
  | succ n ih =>
    have hbelow : ∀ a ∈ s.contents v, ∀ b ∈ s.contents w,
        s.rankTo n b a = (s.rankTo n a b).map Ordering.swap := fun a ha b hb => ih (hv a ha) (hw b hb)
    have hequal : ∀ a ∈ s.contents v, ∀ b ∈ s.contents w, s.equalTo n b a = s.equalTo n a b :=
      fun a ha b hb => equalTo_comm (hv a ha) (hw b hb)
    unfold rankTo
    cases v <;> cases w
    case str.str x y => exact congrArg some (Text.rank_swap x y)
    case list.list x y => exact rankSequences_swap hequal hbelow
    case tuple.tuple x y => exact rankSequences_swap hequal hbelow
    all_goals first | rfl | exact Number.Scalar.rank_swap _ _

/-- Equal values are beside each other if they compare. -/
theorem rankTo_of_equal (hv : EndsWithin s.contents n v) (h : s.equalTo n v w = .ok true)
    {o : Ordering} (ho : s.rankTo n v w = some o) : o = .eq := by
  cases n with
  | zero => exact hv.elim
  | succ n =>
    by_cases hcell : v.sameCell w = true
    · obtain rfl := Value.eq_of_sameCell hcell
      have hswap := rankTo_swap hv hv
      rw [ho] at hswap
      cases o <;> simp at hswap ⊢
    · unfold equalTo at h
      unfold rankTo at ho
      rw [if_neg hcell] at h
      cases v <;> cases w
      case str.str x y =>
        obtain rfl : x = y := of_decide_eq_true (Except.ok.inj h)
        exact (Option.some.inj ho).symm.trans (Text.rank_self x)
      case list.list x y =>
        exact Option.some.inj (ho.symm.trans (rankSequences_of_equal (forall₂_of_allEqual h)))
      case tuple.tuple x y =>
        exact Option.some.inj (ho.symm.trans (rankSequences_of_equal (forall₂_of_allEqual h)))
      all_goals first | cases ho; done | exact Number.Scalar.rank_of_equal (Except.ok.inj h) ho

/-! ### Values that compare -/

/-- Whether a value can be compared with others: it is there and does not hold itself. What a node
in it holds does not matter. -/
structure Comparand (s : Store) (v : Value) : Prop where
  has : s.Has v
  acyclic : Acyclic s.contents v

theorem Comparand.endsWithin (h : s.Comparand v) (hs : s.WellFormed) :
    EndsWithin s.contents s.depthBound v := by
  have hreached : ∀ u, Reaches s.contents v u → s.Has u := fun u hu =>
    hu.closed h.has fun x _ hx y hy => hs.has_parts hx y (s.contents_subset_parts x hy)
  have hparts : ∀ u, s.contents u ≠ [] → s.parts u ≠ [] := fun u hu hnone =>
    hu (List.subset_nil.mp (hnone ▸ s.contents_subset_parts u))
  exact h.acyclic.endsWithin (fun u hu hne => number_lt (hreached u hu) (hparts u hne))
    fun u w hu hw hne hne' => number_injective (hreached u hu) (hreached w hw) (hparts u hne)
      (hparts w hne')

/-- What is compared on the left, as what is the same in a later store. -/
theorem WellFormed.same_left (hs : s.WellFormed) (hv : s.Has v)
    (hn : EndsWithin s.contents (n + 1) v) (xs : List Value) (hxs : ∀ x ∈ xs, x ∈ s.contents v) :
    List.Forall₂ (fun a a' => a = a' ∧ s.Has a ∧ EndsWithin s.contents n a) xs xs :=
  List.forall₂_same.mpr fun x hx =>
    ⟨rfl, hs.has_parts hv x (s.contents_subset_parts v (hxs x hx)), hn x (hxs x hx)⟩

theorem WellFormed.same_right (hs : s.WellFormed) (hw : s.Has w) (ys : List Value)
    (hys : ∀ y ∈ ys, y ∈ s.contents w) : List.Forall₂ (fun b b' => b = b' ∧ s.Has b) ys ys :=
  List.forall₂_same.mpr fun y hy =>
    ⟨rfl, hs.has_parts hw y (s.contents_subset_parts w (hys y hy))⟩

section Extends

variable (hs : s.WellFormed) (hst : s.Extends t)

include hs hst

/-- Equality goes by what is there, however many cells are added and however deep one may look. -/
theorem equalTo_extends (hv : s.Has v) (hw : s.Has w) (hn : EndsWithin s.contents n v)
    (hm : n ≤ m) : t.equalTo m v w = s.equalTo n v w := by
  induction n generalizing m v w with
  | zero => exact hn.elim
  | succ n ih =>
    obtain ⟨m, rfl, hnm⟩ := Mates.exists_succ_le hm
    have hbelow : ∀ a a' b b', (a = a' ∧ s.Has a ∧ EndsWithin s.contents n a) →
        (b = b' ∧ s.Has b) → t.equalTo m a' b' = s.equalTo n a b := by
      rintro a _ b _ ⟨rfl, ha, hna⟩ ⟨rfl, hb⟩
      exact ih ha hb hna hnm
    have hleft := hs.same_left hv hn
    have hright := hs.same_right hw
    unfold equalTo
    refine if_congr Iff.rfl rfl ?_
    cases v <;> cases w
    case list.list x y =>
      have hx : t.list x = s.list x := hst.agree hv
      have hy : t.list y = s.list y := hst.agree hw
      show allEqual (t.equalTo m) (t.list x) (t.list y) = _
      rw [hx, hy]
      exact allEqual_congr hbelow (hleft _ fun _ h => h) (hright _ fun _ h => h)
    case tuple.tuple x y =>
      have hx : t.tuple x = s.tuple x := hst.agree hv
      have hy : t.tuple y = s.tuple y := hst.agree hw
      show allEqual (t.equalTo m) (t.tuple x) (t.tuple y) = _
      rw [hx, hy]
      exact allEqual_congr hbelow (hleft _ fun _ h => h) (hright _ fun _ h => h)
    case dict.dict x y =>
      have hx : t.dict x = s.dict x := hst.agree hv
      have hy : t.dict y = s.dict y := hst.agree hw
      have hentries : (s.dict x).Related (fun a a' => a = a' ∧ s.Has a ∧ EndsWithin s.contents n a)
          (s.dict x) := ⟨rfl, hleft _ fun _ h => h⟩
      have hpartners : (s.dict y).Related (fun b b' => b = b' ∧ s.Has b) (s.dict y) :=
        ⟨rfl, hright _ fun _ h => h⟩
      simp only [Value.scalar?, hx, hy]
      rw [entriesEqual_congr hbelow hpartners hentries.pairs]
    all_goals rfl

theorem orderTo_extends (hv : s.Has v) (hw : s.Has w) (hn : EndsWithin s.contents n v)
    (hm : n ≤ m) : t.orderTo rel m v w = s.orderTo rel n v w := by
  induction n generalizing m v w with
  | zero => exact hn.elim
  | succ n ih =>
    obtain ⟨m, rfl, hnm⟩ := Mates.exists_succ_le hm
    have hequal : ∀ a a' b b', (a = a' ∧ s.Has a ∧ EndsWithin s.contents n a) →
        (b = b' ∧ s.Has b) → t.equalTo m a' b' = s.equalTo n a b := by
      rintro a _ b _ ⟨rfl, ha, hna⟩ ⟨rfl, hb⟩
      exact equalTo_extends hs hst ha hb hna hnm
    have hbelow : ∀ a a' b b', (a = a' ∧ s.Has a ∧ EndsWithin s.contents n a) →
        (b = b' ∧ s.Has b) → t.orderTo rel m a' b' = s.orderTo rel n a b := by
      rintro a _ b _ ⟨rfl, ha, hna⟩ ⟨rfl, hb⟩
      exact ih ha hb hna hnm
    have hleft := hs.same_left hv hn
    have hright := hs.same_right hw
    unfold orderTo
    cases v <;> cases w
    case list.list x y =>
      have hx : t.list x = s.list x := hst.agree hv
      have hy : t.list y = s.list y := hst.agree hw
      show orderSequences (t.equalTo m) (t.orderTo rel m) rel (t.list x) (t.list y) = _
      rw [hx, hy]
      exact orderSequences_congr hequal hbelow (hleft _ fun _ h => h) (hright _ fun _ h => h)
    case tuple.tuple x y =>
      have hx : t.tuple x = s.tuple x := hst.agree hv
      have hy : t.tuple y = s.tuple y := hst.agree hw
      show orderSequences (t.equalTo m) (t.orderTo rel m) rel (t.tuple x) (t.tuple y) = _
      rw [hx, hy]
      exact orderSequences_congr hequal hbelow (hleft _ fun _ h => h) (hright _ fun _ h => h)
    all_goals rfl

end Extends

end Store

end LiveTree
