import LiveTree.Form.Encode
import LiveTree.Form.Same
import LiveTree.Proofs.Store.WellFormed
import Mathlib.Data.List.Forall2

/-! Values that look the same, each in a store of its own. They have the same scalars in the same
places, lists and tuples of the same length, maps with the same names in the same order, and nodes
of the same id, kind and type id. Such values have the same serialized form, and in one store they
are structurally equal. -/

namespace LiveTree

section Lists

variable {α β γ : Type} {m : Type → Type} [Monad m] [LawfulMonad m]

/-- Functions that agree on partners give the same results over both lists. -/
theorem mapM_congr_forall₂ {f : α → m γ} {g : β → m γ} {xs : List α} {ys : List β}
    (h : List.Forall₂ (fun x y => g y = f x) xs ys) : ys.mapM g = xs.mapM f := by
  induction h with
  | nil => rfl
  | cons h _ ih => rw [List.mapM_cons, List.mapM_cons, h, ih]

/-- What follows for the partners in two lists makes them partners of another sort. -/
theorem forall₂_imp_mem {R S : α → β → Prop} {xs : List α} {ys : List β} (h : List.Forall₂ R xs ys)
    (hRS : ∀ x ∈ xs, ∀ y ∈ ys, R x y → S x y) : List.Forall₂ S xs ys := by
  induction h with
  | nil => exact .nil
  | cons hxy _ ih =>
    refine .cons (hRS _ List.mem_cons_self _ List.mem_cons_self hxy) (ih fun x hx y hy => ?_)
    exact hRS x (List.mem_cons_of_mem _ hx) y (List.mem_cons_of_mem _ hy)

theorem forall₂_of_common {R : α → β → Prop} {S : α → γ → Prop} {T : β → γ → Prop} {xs : List α}
    {ys : List β} {zs : List γ} (h : List.Forall₂ R xs ys) (h' : List.Forall₂ S xs zs)
    (hT : ∀ x ∈ xs, ∀ y z, R x y → S x z → T y z) : List.Forall₂ T ys zs := by
  induction h generalizing zs with
  | nil =>
    cases h'
    exact .nil
  | cons hxy _ ih =>
    cases h' with
    | cons hxz h' =>
      exact .cons (hT _ List.mem_cons_self _ _ hxy hxz)
        (ih h' fun x hx => hT x (List.mem_cons_of_mem _ hx))

theorem exists_partner {R : α → β → Prop} {xs : List α} {ys : List β}
    (h : List.Forall₂ R xs ys) : ∀ x ∈ xs, ∃ y ∈ ys, R x y := by
  induction h with
  | nil => simp
  | cons hxy _ ih =>
    refine List.forall_mem_cons.mpr ⟨⟨_, List.mem_cons_self, hxy⟩, fun x hx => ?_⟩
    obtain ⟨y, hy, hR⟩ := ih x hx
    exact ⟨y, List.mem_cons_of_mem _ hy, hR⟩

/-- Pairs are partners when they have the same names and their values are partners. -/
theorem forall₂_pairs {R : α → β → Prop} {l : List (String × α)} {l' : List (String × β)} :
    List.Forall₂ (fun p q => q.1 = p.1 ∧ R p.2 q.2) l l' ↔
      l'.map Prod.fst = l.map Prod.fst ∧ List.Forall₂ R (l.map Prod.snd) (l'.map Prod.snd) := by
  induction l generalizing l' with
  | nil => cases l' <;> simp
  | cons p rest ih =>
    cases l' with
    | nil => simp
    | cons q rest' =>
      simp only [List.forall₂_cons, List.map_cons, List.cons.injEq, ih]
      tauto

theorem Entries.isEmpty_eq_of_keys {a : Entries α} {b : Entries β} (h : b.keys = a.keys) :
    b.toList.isEmpty = a.toList.isEmpty := by
  have := congrArg List.isEmpty h
  simpa [keys] using this

/-- Partners of the pairs of a map, with the same names, are the pairs of a map. -/
theorem Entries.partners_ofList {R : α → β → Prop} {m : Entries α} {l : List (String × β)}
    (h : List.Forall₂ (fun p q => q.1 = p.1 ∧ R p.2 q.2) m.toList l) :
    (Entries.ofList l).keys = m.keys ∧ List.Forall₂ R m.values (Entries.ofList l).values := by
  have hpairs := forall₂_pairs.mp h
  have hlist : (Entries.ofList l).toList = l := toList_ofList (hpairs.1 ▸ m.nodup)
  rwa [← hlist] at hpairs

theorem Entries.values_ofList_of_partners {R : String × α → String × β → Prop} {m : Entries α}
    {l : List (String × β)} (h : List.Forall₂ (fun p q => q.1 = p.1 ∧ R p q) m.toList l) :
    (Entries.ofList l).values = l.map Prod.snd := by
  have hnames := (forall₂_pairs (R := fun _ _ => True)).mp (h.imp fun _ _ hpq => ⟨hpq.1, trivial⟩)
  exact congrArg (List.map Prod.snd) (toList_ofList (hnames.1 ▸ m.nodup))

end Lists

theorem Store.parts_of_sequence {s : Store} {v : Value} {xs : List Value}
    (h : s.sequence? v = some xs) : s.parts v = xs := by
  cases v <;> simp_all [sequence?, parts]

theorem Store.sequence?_of_cell?_eq_none {v : Value} (s : Store) (h : v.cell? = none) :
    s.sequence? v = none := by
  cases v <;> first | rfl | cases h

/-- Values of two stores that look the same. -/
inductive Alike (s t : Store) : Value → Value → Prop
  | scalar {v : Value} (h : v.cell? = none) : Alike s t v v
  | sequence {v w : Value} {xs ys : List Value} (hv : s.sequence? v = some xs)
      (hw : t.sequence? w = some ys) (h : List.Forall₂ (Alike s t) xs ys) : Alike s t v w
  | dict {a b : DictRef} (hkeys : (t.dict b).keys = (s.dict a).keys)
      (h : List.Forall₂ (Alike s t) (s.dict a).values (t.dict b).values) :
      Alike s t (.dict a) (.dict b)
  | node {a b : NodeRef} (hid : (t.node b).id = (s.node a).id)
      (htype : (t.typeOf b).id = (s.typeOf a).id) (hkind : (t.node b).kind = (s.node a).kind)
      (hvalue : Alike s t (s.node a).value (t.node b).value)
      (hdefault : Alike s t (s.node a).default (t.node b).default)
      (hkeys : ∀ role, ((t.node b).entries role).keys = ((s.node a).entries role).keys)
      (h : ∀ role, List.Forall₂ (fun x y => Alike s t (.node x) (.node y))
        ((s.node a).entries role).values ((t.node b).entries role).values) :
      Alike s t (.node a) (.node b)

namespace Alike

variable {s t : Store} {v w : Value}

theorem isNone_eq (h : Alike s t v w) : w.isNone = v.isNone := by
  cases h with
  | scalar => rfl
  | sequence hv hw => cases v <;> cases w <;> simp_all [Store.sequence?, Value.isNone]
  | dict => rfl
  | node => rfl

/-- What ends looks like itself. -/
theorem refl {n : ℕ} (hend : EndsWithin s.parts n v) : Alike s s v v := by
  induction n generalizing v with
  | zero => exact hend.elim
  | succ n ih =>
    have below : ∀ {l : List Value}, (∀ p ∈ l, p ∈ s.parts v) → List.Forall₂ (Alike s s) l l :=
      fun hl => List.forall₂_same.mpr fun p hp => ih (hend p (hl p hp))
    cases v with
    | list r => exact .sequence rfl rfl (below fun _ hp => hp)
    | tuple r => exact .sequence rfl rfl (below fun _ hp => hp)
    | dict r => exact .dict rfl (below fun _ hp => hp)
    | node r =>
      exact .node rfl rfl rfl (ih (hend _ (s.node r).value_mem_parts))
        (ih (hend _ (s.node r).default_mem_parts)) (fun _ => rfl) fun role =>
          List.forall₂_same.mpr fun q hq => ih (hend _ ((s.node r).entry_mem_parts role hq))
    | _ => exact .scalar rfl

/-- A store that extends the first one can take its place. -/
theorem of_extends {s' : Store} (hs : s.WellFormed) (he : s.Extends s') (hv : s.Has v) {n : ℕ}
    (hend : EndsWithin s.parts n v) (h : Alike s t v w) : Alike s' t v w := by
  induction n generalizing v w with
  | zero => exact hend.elim
  | succ n ih =>
    have below : ∀ p ∈ s.parts v, ∀ q, Alike s t p q → Alike s' t p q := fun p hp q =>
      ih (hs.has_parts hv p hp) (hend p hp)
    cases h with
    | scalar h => exact .scalar h
    | @sequence _ _ xs _ hxs hw h =>
      have hparts := Store.parts_of_sequence hxs
      have hxs' : s'.sequence? v = some xs := by
        rw [← hxs]
        cases v <;> first | rfl | exact congrArg some (he.agree hv)
      exact .sequence hxs' hw (forall₂_imp_mem h fun p hp q _ => below p (hparts ▸ hp) q)
    | @dict a b hkeys h =>
      have ha : s'.dict a = s.dict a := he.agree hv
      refine .dict (by rw [ha, hkeys]) ?_
      rw [ha]
      exact forall₂_imp_mem h fun p hp q _ => below p hp q
    | @node a b hid htype hkind hvalue hdefault hkeys h =>
      have ha : s'.node a = s.node a := he.node hv
      have hta : s'.typeOf a = s.typeOf a := by
        rw [Store.typeOf, ha, he.node (hs.has_type hv), Store.typeOf]
      refine .node (by rw [ha, hid]) (by rw [hta, htype]) (by rw [ha, hkind]) ?_ ?_
        (fun role => by rw [ha, hkeys role]) fun role => ?_
      · rw [ha]
        exact below _ (s.node a).value_mem_parts _ hvalue
      · rw [ha]
        exact below _ (s.node a).default_mem_parts _ hdefault
      · rw [ha]
        exact forall₂_imp_mem (h role) fun p hp q _ =>
          below _ ((s.node a).entry_mem_parts role hp) _

/-- What looks like one value looks the same. -/
theorem of_common {u : Store} {w' : Value} {n : ℕ} (hend : EndsWithin s.parts n v)
    (h : Alike s t v w) (h' : Alike s u v w') : Alike t u w w' := by
  induction n generalizing v w w' with
  | zero => exact hend.elim
  | succ n ih =>
    have below : ∀ p ∈ s.parts v, ∀ a b, Alike s t p a → Alike s u p b → Alike t u a b :=
      fun p hp _ _ => ih (hend p hp)
    cases h with
    | scalar h =>
      cases h' with
      | scalar => exact .scalar h
      | sequence hv => cases (s.sequence?_of_cell?_eq_none h).symm.trans hv
      | dict => cases h
      | node => cases h
    | @sequence _ _ xs ys hv hw h =>
      cases h' with
      | scalar h' => cases (s.sequence?_of_cell?_eq_none h').symm.trans hv
      | @sequence _ _ xs' zs hv' hw' h' =>
        obtain rfl : xs = xs' := Option.some.inj (hv.symm.trans hv')
        exact .sequence hw hw' (forall₂_of_common h h' fun p hp =>
          below p (Store.parts_of_sequence hv ▸ hp))
      | dict => cases hv
      | node => cases hv
    | dict hkeys h =>
      cases h' with
      | scalar h' => cases h'
      | sequence hv => cases hv
      | dict hkeys' h' => exact .dict (hkeys'.trans hkeys.symm) (forall₂_of_common h h' below)
    | @node a b hid htype hkind hvalue hdefault hkeys h =>
      cases h' with
      | scalar h' => cases h'
      | sequence hv => cases hv
      | node hid' htype' hkind' hvalue' hdefault' hkeys' h' =>
        exact .node (hid'.trans hid.symm) (htype'.trans htype.symm) (hkind'.trans hkind.symm)
          (below _ (s.node a).value_mem_parts _ _ hvalue hvalue')
          (below _ (s.node a).default_mem_parts _ _ hdefault hdefault')
          (fun role => (hkeys' role).trans (hkeys role).symm) fun role =>
            forall₂_of_common (h role) (h' role) fun p hp _ _ =>
              below _ ((s.node a).entry_mem_parts role hp) _ _

theorem trans {u : Store} {x : Value} {n m : ℕ} (hv : EndsWithin s.parts n v)
    (hw : EndsWithin t.parts m w) (h : Alike s t v w) (h' : Alike t u w x) : Alike s u v x :=
  of_common hw (of_common hv h (.refl hv)) h'

end Alike

/-! ### The serialized form -/

section Form

variable {ν : Type} {s t : Store} {v w : Value}

theorem Store.formTo_sequence {xs : List Value} (h : s.sequence? v = some xs) (n : ℕ) :
    (s.formTo (n + 1) v : Except Fault (Data ν)) = .list <$> xs.mapM (s.formTo n) := by
  cases v <;> simp_all [Store.sequence?, Store.formTo]

/-- What looks the same has the same serialized form, to every depth. -/
theorem Alike.formTo_eq (h : Alike s t v w) (n : ℕ) :
    (t.formTo n w : Except Fault (Data ν)) = s.formTo n v := by
  induction n generalizing v w with
  | zero => rfl
  | succ n ih =>
    cases h with
    | scalar hv => cases v <;> first | rfl | cases hv
    | sequence hv hw h =>
      rw [Store.formTo_sequence hv, Store.formTo_sequence hw,
        mapM_congr_forall₂ (h.imp fun _ _ => ih)]
    | dict hkeys h =>
      have hentries := (forall₂_pairs.mpr ⟨hkeys, h⟩).imp fun p q hpq =>
        show (do return (q.1, ← t.formTo n q.2) : Except Fault (String × Data ν)) =
          (do return (p.1, ← s.formTo n p.2)) by rw [hpq.1, ih hpq.2]
      simp only [Store.formTo, mapM_congr_forall₂ hentries]
    | @node a b hid htype _ hvalue hdefault hkeys h =>
      have hmaps : ∀ role, ((t.node b).entries role).toList.mapM
            (fun q => do return (q.1, ← t.formTo n (.node q.2))) =
          (((s.node a).entries role).toList.mapM
            fun p => do return (p.1, ← s.formTo n (.node p.2)) :
              Except Fault (List (String × Data ν))) := fun role =>
        mapM_congr_forall₂ <| (forall₂_pairs.mpr ⟨hkeys role, h role⟩).imp fun p q hpq => by
          rw [hpq.1, ih hpq.2]
      have hempty := fun role => Entries.isEmpty_eq_of_keys (hkeys role)
      simp only [Store.typeOf] at htype
      simp only [Store.formTo, hid, htype, hvalue.isNone_eq, hdefault.isNone_eq, ih hvalue,
        ih hdefault, hempty, hmaps]

end Form

end LiveTree
