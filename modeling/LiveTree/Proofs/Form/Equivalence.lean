import LiveTree.Proofs.Form.Equality

/-! Structural equality is an equivalence. Scalars are equal when they count as the same; lists,
tuples, maps and nodes are the same when their parts are, so whatever is the same as one value is the
same among itself, by induction on the depth of that value. Comparing a cell with itself part by part
says what the shortcut says. -/

namespace LiveTree

/-- Different integers lie in different places. -/
theorem Number.Position.ofInt_inj {i j : Int} : ofInt i = ofInt j ↔ i = j := by
  have hstep : ∀ n, ((Nat.pow 2 n : Nat) : Int) ≠ 0 := fun n =>
    Int.natCast_ne_zero.mpr (Nat.ne_of_gt (Nat.two_pow_pos n))
  rw [ofInt, ofInt, steps.injEq, Int.mul_eq_mul_right_iff (hstep gridBits)]

/-- What a scalar counts as in a comparison: numbers of both sorts and truth values by their place
on the line. -/
inductive Standing where
  | absent
  | number (p : Number.Position)
  | text (t : String)
  deriving DecidableEq

namespace Value

/-- What a value counts as, if it is a scalar and equal to itself. -/
def standing? : Value → Option Standing
  | .none => some .absent
  | .str t => some (.text t)
  | v => (v.scalar?.bind Number.Scalar.position?).map .number

/-- Scalars are equal when they count as the same. -/
theorem scalarsEqual_iff {v w : Value} :
    v.scalarsEqual w = true ↔ ∃ k, v.standing? = some k ∧ w.standing? = some k := by
  have hnumbers : ∀ x y : Number.Scalar, x.equal y = true ↔
      ∃ p, x.position? = some p ∧ y.position? = some p := by
    intro x y
    cases hx : x.position? <;> cases hy : y.position? <;>
      simp [Number.Scalar.equal, hx, hy, eq_comm]
  cases v <;> cases w <;> simp [scalarsEqual, standing?, scalar?, hnumbers]
  exact eq_comm

theorem scalarsEqual_of_scalar? {v w : Value} {x y : Number.Scalar} (hv : v.scalar? = some x)
    (hw : w.scalar? = some y) : v.scalarsEqual w = x.equal y := by
  simp only [scalarsEqual, hv, hw]

end Value

/-- What is related to one list by two relations is related to each other. -/
theorem Entries.Matched.of_common {α β γ : Type} {R : α → β → Prop} {S : α → γ → Prop}
    {T : β → γ → Prop} {l : List (String × α)} {l' : List (String × β)}
    {l'' : List (String × γ)} (h : Matched R l l') (h' : Matched S l l'')
    (hT : ∀ p ∈ l, ∀ y z, R p.2 y → S p.2 z → T y z) : Matched T l' l'' where
  names k := (h.names k).symm.trans (h'.names k)
  related hy hz :=
    have ⟨_, hx, hxy⟩ := h.flip.exists_right hy
    hT _ (mem_of_find_eq_some hx) _ _ hxy (h'.related hx hz)

namespace Store

variable {s : Store} {u v w : Value}

/-- What is the same as one value is the same as each other. -/
theorem Same.of_common {n : ℕ} (hend : EndsWithin s.parts n u) (h : s.Same u v)
    (h' : s.Same u w) : s.Same v w := by
  induction n generalizing u v w with
  | zero => exact hend.elim
  | succ n ih =>
    have below : ∀ p ∈ s.parts u, ∀ y z, s.Same p y → s.Same p z → s.Same y z :=
      fun p hp _ _ => ih (hend p hp)
    cases h with
    | scalar hu h =>
      cases h' with
      | scalar _ h' =>
        obtain ⟨k, huk, hv⟩ := Value.scalarsEqual_iff.mp h
        obtain ⟨k', huk', hw⟩ := Value.scalarsEqual_iff.mp h'
        obtain rfl := Option.some.inj (huk.symm.trans huk')
        exact .scalar (Value.cell?_eq_none_of_scalarsEqual h) (Value.scalarsEqual_iff.mpr ⟨k, hv, hw⟩)
      | sequence hxs => cases u <;> first | (cases hu; done) | cases hxs
      | dict => cases hu
      | node => cases hu
    | sequence hu hv h =>
      have hparts := parts_of_sequence hu
      cases h' with
      | scalar hscalar => cases u <;> first | (cases hscalar; done) | cases hu
      | sequence hu' hw h' =>
        obtain rfl := Option.some.inj (hu.symm.trans hu')
        exact .sequence hv hw (forall₂_of_common h h' fun p hp => below p (hparts ▸ hp))
      | dict => cases hu
      | node => cases hu
    | dict hnames h =>
      cases h' with
      | scalar hu => cases hu
      | sequence hu => cases hu
      | dict hnames' h' =>
        exact dict_iff.mpr (Entries.Matched.of_common (dict_iff.mp (.dict hnames h))
          (dict_iff.mp (.dict hnames' h')) fun p hp => below p.2 (List.mem_map_of_mem hp))
    | @node a b hid htype hvalue hdefault hnames h =>
      cases h' with
      | scalar hu => cases hu
      | sequence hu => cases hu
      | node hid' htype' hvalue' hdefault' hnames' h' =>
        refine node_iff.mpr ⟨⟨hid.symm.trans hid', htype.symm.trans htype'⟩,
          below _ (s.node a).value_mem_parts _ _ hvalue hvalue',
          below _ (s.node a).default_mem_parts _ _ hdefault hdefault', fun role => ?_⟩
        exact Entries.Matched.of_common ⟨hnames role, h⟩ ⟨hnames' role, h'⟩ fun p hp _ _ =>
          below _ ((s.node a).entry_mem_parts role (List.mem_map_of_mem hp)) _ _

/-- Whether values are the same, to a given depth, where no cell counts as the same as itself before
its parts are compared. -/
def comparedTo (s : Store) : ℕ → Value → Value → Except Fault Bool
  | 0, _, _ => .error .endless
  | n + 1, v, w => s.compareParts (s.comparedTo n) v w

theorem comparedTo_decides {n : ℕ} (hend : EndsWithin s.parts n v) :
    Decides (s.comparedTo n v w) (s.Same v w) := by
  induction n generalizing v w with
  | zero => exact hend.elim
  | succ n ih => exact compareParts_decides fun p hp _ => ih (hend p hp)

/-- Values that are there, of which no part lies below itself or is a number that is not a number. -/
structure Comparable (s : Store) (v : Value) : Prop where
  has : s.Has v
  acyclic : Acyclic s.parts v
  ordered : ∀ u, Reaches s.parts v u → ¬ u.IsNaN

namespace Comparable

theorem ends (hs : s.WellFormed) (h : s.Comparable v) : EndsWithin s.parts s.depthBound v :=
  hs.endsWithin h.has h.acyclic

theorem part (hs : s.WellFormed) (h : s.Comparable v) {p : Value} (hp : p ∈ s.parts v) :
    s.Comparable p where
  has := hs.has_parts h.has p hp
  acyclic u hu := h.acyclic u (hu.of_below hp)
  ordered u hu := h.ordered u (hu.of_below hp)

/-- A value can be compared when its parts can. -/
theorem of_parts (hv : s.Has v) (hnan : ¬ v.IsNaN) (h : ∀ p ∈ s.parts v, s.Comparable p) :
    s.Comparable v where
  has := hv
  acyclic := by
    refine Reaches.forall_iff.mpr ⟨fun hcycle => ?_, fun p hp => (h p hp).acyclic⟩
    obtain ⟨p, hp, hpv⟩ := Relation.TransGen.head'_iff.mp hcycle
    exact (h p hp).acyclic p (.refl p) (Relation.TransGen.tail' hpv hp)
  ordered := Reaches.forall_iff.mpr ⟨hnan, fun p hp => (h p hp).ordered⟩

theorem decides (hs : s.WellFormed) (h : s.Comparable v) : Decides (s.same v w) (s.Same v w) :=
  sameTo_decides (h.ends hs) h.ordered

theorem same_iff (hs : s.WellFormed) (h : s.Comparable v) : s.same v w = .ok true ↔ s.Same v w :=
  (h.decides hs).eq_true_iff

theorem refl (hs : s.WellFormed) (h : s.Comparable v) : s.Same v v :=
  same_of_alike (.refl (h.ends hs)) (h.ends hs) h.ordered

theorem symm (hs : s.WellFormed) (h : s.Comparable v) (hvw : s.Same v w) : s.Same w v :=
  hvw.of_common (h.ends hs) (h.refl hs)

theorem trans (hs : s.WellFormed) (hu : s.Comparable u) (hv : s.Comparable v) (huv : s.Same u v)
    (hvw : s.Same v w) : s.Same u w :=
  (hu.symm hs huv).of_common (hv.ends hs) hvw

end Comparable

/-- Whether a check is an equivalence on the things of a sort: it answers for every two of them, and
its answers are reflexive, symmetric and transitive. -/
structure IsEquivalence {α : Type} (p : α → Prop) (check : α → α → Except Fault Bool) : Prop where
  answers {a b : α} : p a → p b → ∃ c, check a b = .ok c
  refl {a : α} : p a → check a a = .ok true
  symm {a b : α} : p a → p b → check a b = check b a
  trans {a b c : α} : p a → p b → p c → check a b = .ok true → check b c = .ok true →
    check a c = .ok true

/-- The things that stand for the things of a sort are compared as these are. -/
theorem IsEquivalence.comap {α β : Type} {p : α → Prop} {check : α → α → Except Fault Bool}
    (h : IsEquivalence p check) (f : β → α) :
    IsEquivalence (fun b => p (f b)) fun a b => check (f a) (f b) :=
  ⟨h.answers, h.refl, h.symm, h.trans⟩

theorem isEquivalence_same (hs : s.WellFormed) : IsEquivalence s.Comparable s.same where
  answers ha _ := have ⟨c, hc, _⟩ := ha.decides hs; ⟨c, hc⟩
  refl ha := (ha.same_iff hs).mpr (ha.refl hs)
  symm ha hb := by
    obtain ⟨c, hc, hiff⟩ := ha.decides hs
    obtain ⟨d, hd, hiff'⟩ := hb.decides hs
    have hcd : c = d := Bool.eq_iff_iff.mpr
      (hiff.trans (Iff.trans ⟨ha.symm hs, hb.symm hs⟩ hiff'.symm))
    rw [hc, hd, hcd]
  trans ha hb _ hab hbc := (ha.same_iff hs).mpr
    (ha.trans hs hb ((ha.same_iff hs).mp hab) ((hb.same_iff hs).mp hbc))

/-! ### How values of each shape compare -/

theorem same_of_scalar (hv : v.cell? = none) : s.same v w = .ok (v.scalarsEqual w) := by
  rw [same, depthBound, sameTo_succ]
  cases v <;> first | rfl | cases hv

/-- A truth value counts as zero or one. -/
theorem same_bool_int (s : Store) (b : Bool) (i : Int) :
    s.same (.bool b) (.int i) = .ok (decide (i = if b then 1 else 0)) := by
  rw [same_of_scalar rfl, Value.scalarsEqual_of_scalar? rfl rfl]
  simp only [Number.Scalar.equal, Number.Scalar.position?,
    Number.Position.ofInt_inj, eq_comm]

/-- An integer is equal to a floating-point number that lies exactly where it lies. -/
theorem same_int_float (s : Store) (i : Int) (x : Float) : s.same (.int i) (.float x) =
    .ok (decide (Number.Position.ofFloat? x = some (.ofInt i))) := by
  rw [same_of_scalar rfl, Value.scalarsEqual_of_scalar? rfl rfl]
  simp only [Number.Scalar.equal, Number.Scalar.position?]
  cases Number.Position.ofFloat? x <;> simp [eq_comm]

section Shapes

variable (hs : s.WellFormed)
include hs

theorem same_sequence_iff {xs ys : List Value} (h : s.Comparable v) (hv : s.sequence? v = some xs)
    (hw : s.sequence? w = some ys) :
    s.same v w = .ok true ↔ List.Forall₂ (fun x y => s.same x y = .ok true) xs ys := by
  have hpart : ∀ x ∈ xs, s.Comparable x := fun x hx => h.part hs (parts_of_sequence hv ▸ hx)
  rw [h.same_iff hs, Same.sequence_iff hv hw]
  constructor
  · exact fun h => forall₂_imp_mem h fun x hx _ _ => ((hpart x hx).same_iff hs).mpr
  · exact fun h => forall₂_imp_mem h fun x hx _ _ => ((hpart x hx).same_iff hs).mp

theorem same_dict_iff {a b : DictRef} (h : s.Comparable (.dict a)) :
    s.same (.dict a) (.dict b) = .ok true ↔
      Entries.Matched (fun x y => s.same x y = .ok true) (s.dict a).toList (s.dict b).toList := by
  have hpart : ∀ p ∈ (s.dict a).toList, s.Comparable p.2 := fun p hp =>
    h.part hs (List.mem_map_of_mem hp)
  rw [h.same_iff hs, Same.dict_iff]
  constructor
  · exact fun h => h.imp fun p hp _ _ => ((hpart p hp).same_iff hs).mpr
  · exact fun h => h.imp fun p hp _ _ => ((hpart p hp).same_iff hs).mp

theorem sameNodes_iff {a b : NodeRef} (h : s.Comparable (.node a)) :
    s.sameNodes a b = .ok true ↔
      ((s.node a).id = (s.node b).id ∧ (s.typeOf a).id = (s.typeOf b).id) ∧
        s.same (s.node a).value (s.node b).value = .ok true ∧
        s.same (s.node a).default (s.node b).default = .ok true ∧
        ∀ role, Entries.Matched (fun x y => s.sameNodes x y = .ok true)
          ((s.node a).entries role).toList ((s.node b).entries role).toList := by
  have hpart : ∀ role, ∀ p ∈ ((s.node a).entries role).toList, s.Comparable (.node p.2) :=
    fun role p hp => h.part hs ((s.node a).entry_mem_parts role (List.mem_map_of_mem hp))
  have hmaps : ∀ role, Entries.Matched (fun x y => s.Same (.node x) (.node y))
      ((s.node a).entries role).toList ((s.node b).entries role).toList ↔
      Entries.Matched (fun x y => s.sameNodes x y = .ok true)
        ((s.node a).entries role).toList ((s.node b).entries role).toList := fun role =>
    ⟨fun h => h.imp fun p hp _ _ => ((hpart role p hp).same_iff hs).mpr,
      fun h => h.imp fun p hp _ _ => ((hpart role p hp).same_iff hs).mp⟩
  rw [sameNodes, h.same_iff hs, Same.node_iff,
    (h.part hs (s.node a).value_mem_parts).same_iff hs,
    (h.part hs (s.node a).default_mem_parts).same_iff hs]
  simp only [hmaps]

/-- The order of the entries does not matter. -/
theorem same_dict_of_perm {a b : DictRef} (h : s.Comparable (.dict a))
    (hperm : (s.dict a).toList.Perm (s.dict b).toList) :
    s.same (.dict a) (.dict b) = .ok true := by
  have hfind : ∀ k, (s.dict a).get? k = (s.dict b).get? k := fun k => Option.ext fun x => by
    rw [Entries.get?_eq_some_iff, Entries.get?_eq_some_iff, hperm.mem_iff]
  refine (same_dict_iff hs h).mpr ⟨fun k => congrArg Option.isSome (hfind k), ?_⟩
  intro k x y hx hy
  obtain rfl := Option.some.inj (hx.symm.trans ((hfind k).trans hy))
  have hx := Entries.mem_values_of_get? (m := s.dict a) hx
  have hcomparable : s.Comparable x := h.part hs hx
  exact (hcomparable.same_iff hs).mpr (hcomparable.refl hs)

/-- The shortcut for cells gives the answer that comparing their parts gives. -/
theorem same_eq_comparedTo (h : s.Comparable v) : s.same v w = s.comparedTo s.depthBound v w := by
  obtain ⟨b, hb, hiff⟩ := h.decides (w := w) hs
  obtain ⟨c, hc, hiff'⟩ := comparedTo_decides (w := w) (h.ends hs)
  rw [hb, hc, Bool.eq_iff_iff.mpr (hiff.trans hiff'.symm)]

end Shapes

/-- Comparing is an equivalence on values and on nodes. A truth value counts as zero or one, integers
and floating-point numbers compare by where they lie, lists and tuples by their elements, and maps
and nodes by what they hold under each name, in any order. Shortcuts change no answer. -/
theorem comparing_is_equivalence (hs : s.WellFormed) :
    IsEquivalence s.Comparable s.same ∧
      IsEquivalence (fun r => s.Comparable (.node r)) s.sameNodes ∧
      (∀ b i, s.same (.bool b) (.int i) = .ok (decide (i = if b then 1 else 0))) ∧
      (∀ i x, s.same (.int i) (.float x) =
        .ok (decide (Number.Position.ofFloat? x = some (.ofInt i)))) ∧
      (∀ v w xs ys, s.Comparable v → s.sequence? v = some xs → s.sequence? w = some ys →
        (s.same v w = .ok true ↔ List.Forall₂ (fun x y => s.same x y = .ok true) xs ys)) ∧
      (∀ a b, s.Comparable (.dict a) → (s.same (.dict a) (.dict b) = .ok true ↔
        Entries.Matched (fun x y => s.same x y = .ok true) (s.dict a).toList (s.dict b).toList)) ∧
      (∀ a b, s.Comparable (.dict a) → (s.dict a).toList.Perm (s.dict b).toList →
        s.same (.dict a) (.dict b) = .ok true) ∧
      (∀ a b, s.Comparable (.node a) → (s.sameNodes a b = .ok true ↔
        ((s.node a).id = (s.node b).id ∧ (s.typeOf a).id = (s.typeOf b).id) ∧
          s.same (s.node a).value (s.node b).value = .ok true ∧
          s.same (s.node a).default (s.node b).default = .ok true ∧
          ∀ role, Entries.Matched (fun x y => s.sameNodes x y = .ok true)
            ((s.node a).entries role).toList ((s.node b).entries role).toList)) ∧
      ∀ v w, s.Comparable v → s.same v w = s.comparedTo s.depthBound v w :=
  ⟨isEquivalence_same hs, (isEquivalence_same hs).comap .node, same_bool_int s, same_int_float s,
    fun _ _ _ _ => same_sequence_iff hs, fun _ _ => same_dict_iff hs,
    fun _ _ => same_dict_of_perm hs, fun _ _ => sameNodes_iff hs,
    fun _ _ => same_eq_comparedTo hs⟩

/-- A tuple of a number, a list of a truth value and a tuple of a truth value. -/
def counted : Store :=
  let s := (initial.allocTuple [.int 1]).2
  let s := (s.allocList [.bool true]).2
  (s.allocTuple [.bool true]).2

theorem counted_wellFormed : counted.WellFormed :=
  initial_wellFormed.allocTuple (by decide) |>.allocList (by decide) |>.allocTuple (by decide)

theorem counted_same : counted.same (.tuple ⟨0⟩) (.tuple ⟨1⟩) = .ok true := by
  obtain ⟨hequiv, -, hnumbers, -, hsequence, -⟩ := comparing_is_equivalence counted_wellFormed
  have hscalar : ∀ v : Value, v.cell? = none → ¬ v.IsNaN → counted.Comparable v := fun v hv hnan =>
    .of_parts (by cases v <;> trivial) hnan fun p hp => by
      rw [parts_of_cell?_eq_none counted hv] at hp
      cases hp
  have hone : counted.Comparable (.int 1) := hscalar _ rfl (by simp [Value.IsNaN])
  have htrue : counted.Comparable (.bool true) := hscalar _ rfl (by simp [Value.IsNaN])
  have hcell : ∀ {v p : Value}, counted.parts v = [p] → counted.Has v → counted.Comparable p →
      ¬ v.IsNaN → counted.Comparable v := fun hparts hv hp hnan => .of_parts hv hnan fun q hq => by
    rw [hparts, List.mem_singleton] at hq
    exact hq ▸ hp
  have hfirst := hcell (v := .tuple ⟨0⟩) rfl (by decide) hone (by simp [Value.IsNaN])
  have hmiddle := hcell (v := .list ⟨0⟩) rfl (by decide) htrue (by simp [Value.IsNaN])
  have hlast := hcell (v := .tuple ⟨1⟩) rfl (by decide) htrue (by simp [Value.IsNaN])
  have hnumber : counted.same (.int 1) (.bool true) = .ok true :=
    (hequiv.symm hone htrue).trans (hnumbers true 1)
  exact hequiv.trans hfirst hmiddle hlast
    ((hsequence _ _ _ _ hfirst rfl rfl).mpr (.cons hnumber .nil))
    ((hsequence _ _ _ _ hmiddle rfl rfl).mpr (.cons (hequiv.refl htrue) .nil))

end Store

end LiveTree
