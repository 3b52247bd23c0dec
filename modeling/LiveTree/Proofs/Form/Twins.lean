import LiveTree.Proofs.Form.ComesBack
import LiveTree.Proofs.Form.Copy

/-! Twins: values of one store that differ only in which cells they are made of and which of these
stand in several places. Copying goes by what is in the cells and not by which they are, so twins
have the same copy, down to the new cells. A copy is a twin of what it is a copy of, in which
nothing but tuples is shared; whether something is shared thus makes no difference to a copy, and
copying a copy is copying what it is a copy of. -/

namespace LiveTree

open Store

variable {α β : Type} {s t : Store} {v w : Value}

/-- Values made of the same scalars, tuples and types in the same places. -/
inductive Twin (s : Store) : Value → Value → Prop
  | scalar {v : Value} (h : v.cell? = none) : Twin s v v
  | tuple (r : TupleRef) : Twin s (.tuple r) (.tuple r)
  | list {a b : ListRef} (h : List.Forall₂ (Twin s) (s.list a) (s.list b)) :
      Twin s (.list a) (.list b)
  | dict {a b : DictRef} (hkeys : (s.dict b).keys = (s.dict a).keys)
      (h : List.Forall₂ (Twin s) (s.dict a).values (s.dict b).values) : Twin s (.dict a) (.dict b)
  | node {a b : NodeRef} (hid : (s.node b).id = (s.node a).id)
      (htype : (s.node b).type = (s.node a).type)
      (hvalue : Twin s (s.node a).value (s.node b).value)
      (hdefault : Twin s (s.node a).default (s.node b).default)
      (hkeys : ∀ role, ((s.node b).entries role).keys = ((s.node a).entries role).keys)
      (h : ∀ role, List.Forall₂ (fun x y => Twin s (.node x) (.node y))
        ((s.node a).entries role).values ((s.node b).entries role).values) :
      Twin s (.node a) (.node b)

/-- Whether operations do the same on every store that extends a first one, and thereby only add
cells and give results of some sort. -/
structure Concur (s : Store) (P : α → Prop) (m m' : StoreM α) : Prop where
  keeps : Keeps s.Extends m P
  same : ∀ t, s.Extends t → m t = m' t

namespace Concur

variable {P : α → Prop} {Q : β → Prop} {m m' : StoreM α} {k k' : α → StoreM β}

theorem refl (h : Keeps s.Extends m P) : Concur s P m m := ⟨h, fun _ _ => rfl⟩

theorem mono {P' : α → Prop} (h : Concur s P m m') (hP : ∀ a, P a → P' a) : Concur s P' m m' :=
  ⟨h.keeps.mono hP, h.same⟩

theorem bind (h : Concur s P m m') (hk : ∀ a, P a → Concur s Q (k a) (k' a)) :
    Concur s Q (m >>= k) (m' >>= k') where
  keeps := .bind h.keeps fun a ha => (hk a ha).keeps
  same t ht := by
    have hsame := h.same t ht
    cases hm : m t with
    | ok a u =>
      obtain ⟨hu, ha⟩ := h.keeps.ok ht hm
      rw [bind_of_ok hm, bind_of_ok (hsame.symm.trans hm)]
      exact (hk a ha).same u hu
    | error e u => rw [bind_of_error hm, bind_of_error (hsame.symm.trans hm)]

/-- What is read of the store is read of one that extends the first. -/
theorem get_bind {k k' : Store → StoreM β}
    (h : ∀ t, s.Extends t → Concur s Q (k t) (k' t)) : Concur s Q (get >>= k) (get >>= k') :=
  .bind (.refl .get) h

theorem mapM {γ : Type} {f : α → StoreM β} {g : γ → StoreM β} {l : List α} {l' : List γ}
    (h : List.Forall₂ (fun a b => Concur s Q (f a) (g b)) l l') :
    Concur s (fun _ => True) (l.mapM f) (l'.mapM g) := by
  induction h with
  | nil => exact .refl (.pure trivial)
  | cons hab _ ih =>
    rw [List.mapM_cons, List.mapM_cons]
    exact .bind hab fun b _ => .bind ih fun bs _ => .refl (.pure trivial)

end Concur

/-- What is made of a map of nodes by copying twins. -/
theorem Concur.entries {f : NodeRef → StoreM Value} {m m' : Entries NodeRef}
    (hkeys : m'.keys = m.keys)
    (h : List.Forall₂ (fun x y => Concur s (fun w => ∃ r, w = .node r) (f x) (f y))
      m.values m'.values) :
    Concur s (fun _ => True)
      (do
        let copies ← m.toList.mapM fun p => do return (p.1, (← f p.2).asNode?.getD p.2)
        return Entries.ofList copies)
      (do
        let copies ← m'.toList.mapM fun p => do return (p.1, (← f p.2).asNode?.getD p.2)
        return Entries.ofList copies) := by
  refine .bind (.mapM (Q := fun _ => True) ((forall₂_pairs.mpr ⟨hkeys, h⟩).imp ?_))
    fun _ _ => .refl (.pure trivial)
  rintro ⟨key, x⟩ ⟨_, y⟩ ⟨rfl, hxy⟩
  refine .bind hxy ?_
  rintro _ ⟨r, rfl⟩
  exact .refl (.pure trivial)

/-- Copying twins is the same. -/
theorem Twin.concur_copy (hs : s.WellFormed) (hv : s.Has v) (hw : s.Has w) (h : Twin s v w)
    (n : ℕ) : Concur s (fun x => ∀ r, v = .node r → ∃ c, x = .node c) (copyTo n v) (copyTo n w) := by
  have hadd := additive_extends s
  induction n generalizing v w with
  | zero => exact .refl (.throw _)
  | succ n ih =>
    have below : ∀ p ∈ s.parts v, ∀ q ∈ s.parts w, Twin s p q →
        Concur s (fun x => ∀ r, p = .node r → ∃ c, x = .node c) (copyTo n p) (copyTo n q) :=
      fun p hp q hq => ih (hs.has_parts hv p hp) (hs.has_parts hw q hq)
    cases h with
    | scalar h =>
      refine .refl ((hadd.keeps_copy _ v).mono fun x _ r hr => ?_)
      rw [hr] at h
      cases h
    | tuple q => exact .refl (.pure nofun)
    | @list a b h =>
      refine .get_bind fun t ht => ?_
      rw [show t.list a = s.list a from ht.agree hv, show t.list b = s.list b from ht.agree hw]
      refine .bind (.mapM (Q := fun _ => True) (forall₂_imp_mem h fun p hp q hq hpq => ?_))
        fun vs _ => ?_
      · exact (below p hp q hq hpq).mono fun _ _ => trivial
      · exact .refl (.modifyGet fun x hx => ⟨hadd.list x vs hx, nofun⟩)
    | @dict a b hkeys h =>
      refine .get_bind fun t ht => ?_
      rw [show t.dict a = s.dict a from ht.agree hv, show t.dict b = s.dict b from ht.agree hw]
      have hpairs := forall₂_pairs.mpr ⟨hkeys, forall₂_imp_mem h below⟩
      refine .bind (.mapM (Q := fun _ => True) (hpairs.imp ?_)) fun l _ => ?_
      · rintro ⟨key, x⟩ ⟨_, y⟩ ⟨rfl, hxy⟩
        exact .bind hxy fun _ _ => .refl (.pure trivial)
      · exact .refl (.modifyGet fun x hx => ⟨hadd.dict x (.ofList l) hx, nofun⟩)
    | @node a b hid htype hvalue hdefault hkeys h =>
      refine .get_bind fun t ht => ?_
      rw [show t.node a = s.node a from ht.agree hv, show t.node b = s.node b from ht.agree hw]
      have hentries := fun role => Concur.entries (f := fun r => copyTo n (.node r)) (hkeys role)
        (forall₂_imp_mem (h role) fun x hx y hy hxy => by
          have hx := (s.node a).entry_mem_parts role hx
          have hy := (s.node b).entry_mem_parts role hy
          exact (below _ hx _ hy hxy).mono fun _ hcopy => hcopy x rfl)
      refine .bind (below _ (s.node a).value_mem_parts _ (s.node b).value_mem_parts hvalue)
        fun value _ => ?_
      refine .bind (below _ (s.node a).default_mem_parts _ (s.node b).default_mem_parts hdefault)
        fun default _ => ?_
      refine .bind (hentries .metadata) fun metadata _ => ?_
      refine .bind (hentries .constraints) fun constraints _ => ?_
      refine .bind (hentries .children) fun children _ => ?_
      rw [hid, htype]
      refine .refl (.bind (P := fun _ => True) (.modifyGet fun x hx => ?_) fun r _ =>
        .pure fun _ _ => ⟨r, rfl⟩)
      exact ⟨hadd.node x _ hx, trivial⟩

/-- A copy is a twin of what it is a copy of. -/
theorem CopyOf.twin (hs : s.WellFormed) (he : s.Extends t) {n : ℕ} (hend : EndsWithin s.parts n v)
    (hv : s.Has v) (h : CopyOf s t v w) : Twin t v w := by
  induction n generalizing v w with
  | zero => exact hend.elim
  | succ n ih =>
    have below : ∀ p ∈ s.parts v, ∀ q, CopyOf s t p q → Twin t p q := fun p hp q =>
      ih (hend p hp) (hs.has_parts hv p hp)
    cases h with
    | scalar h => exact .scalar h
    | tuple q => exact .tuple q
    | @list a b _ h =>
      refine .list ?_
      rw [show t.list a = s.list a from he.agree hv]
      exact forall₂_imp_mem h fun p hp q _ => below p hp q
    | @dict a b _ hkeys h =>
      have ha : t.dict a = s.dict a := he.agree hv
      refine .dict (by rw [ha, hkeys]) ?_
      rw [ha]
      exact forall₂_imp_mem h fun p hp q _ => below p hp q
    | @node a b _ hid htype _ hvalue hdefault hkeys h =>
      have ha : t.node a = s.node a := he.agree hv
      refine .node (by rw [ha, hid]) (by rw [ha, htype]) ?_ ?_ (fun role => by rw [ha, hkeys role])
        fun role => ?_
      · rw [ha]
        exact below _ (s.node a).value_mem_parts _ hvalue
      · rw [ha]
        exact below _ (s.node a).default_mem_parts _ hdefault
      · rw [ha]
        exact forall₂_imp_mem (h role) fun p hp q _ =>
          below _ ((s.node a).entry_mem_parts role hp) _

/-- A copy can be compared if what it is a copy of can. -/
theorem CopyOf.comparable (hs : s.WellFormed) (he : s.Extends t) (hv : s.Comparable v)
    (h : CopyOf s t v w) : t.Comparable w where
  has := h.has he hv.has
  acyclic := (h.endsWithin hs he hv.has (hv.ends hs)).acyclic
  ordered u hu hnan := by
    rcases h.reached hs he hv.has hu with ⟨o, ho, hcopy⟩ | ⟨q, hq, hu⟩
    · obtain ⟨x, rfl, hx⟩ := hnan
      cases hcopy with
      | scalar => exact hv.ordered _ ho ⟨x, rfl, hx⟩
    · exact hv.ordered u (hq.trans hu) hnan

theorem Twin.copyNode_eq {r m : NodeRef} (hs : s.WellFormed) (hr : s.Has (.node r))
    (hm : s.Has (.node m)) (h : Twin s (.node r) (.node m)) : copyNode m s = copyNode r s := by
  have hconcur : Concur s (fun _ => True) (copyNode r) (copyNode m) := by
    refine .bind (.get_bind fun t _ => h.concur_copy hs hr hm t.depthBound) fun w hw => ?_
    obtain ⟨c, rfl⟩ := hw r rfl
    exact .refl (.pure trivial)
  exact (hconcur.same s .refl).symm

/-- What a node and its copy have in common, once the copy has been made. -/
structure FaithfulCopy (ν : Type) (s : Store) (r : NodeRef) (t : Store) (c : NodeRef) : Prop where
  copy : CopyOf s t (.node r) (.node c)
  same : t.sameNodes r c = .ok true
  form : ∃ d : Data ν, s.nodeForm r = .ok d ∧ t.nodeForm r = .ok d ∧ t.nodeForm c = .ok d

theorem copyNode_copied (ν : Type) {r : NodeRef} (hs : s.WellFormed) (hr : s.Comparable (.node r)) :
    ∃ c t, copyNode r s = .ok c t ∧ s.Extends t ∧ t.WellFormed ∧ FaithfulCopy ν s r t c ∧
      (t.censusTo s.depthBound (.node c)).Nodup := by
  obtain ⟨c, t, hrun, he, ht, hcopy, hcensus⟩ := copyNode_apart hs hr.has hr.acyclic
  have hend := hr.ends hs
  have hlike : Alike s t (.node r) (.node c) :=
    hcopy.alike hs he.outlives (fun v _ => .refl v) hend hr.has fun q hq =>
      alike_of_agree hs he.outlives (hend.reaches hq) (hs.has_reached hr.has hq) fun _ hx =>
        he.agree (hs.has_reached hr.has (hq.trans hx))
  have hr' := hr.extend hs he
  refine ⟨c, t, hrun, he, ht, ⟨hcopy, ?_, hcopy.nodeForm_eq hs he hr.has hr.acyclic⟩, hcensus⟩
  exact sameTo_of_alike (hlike.of_extends hs he hr.has hend) (hr'.ends ht) hr'.ordered

/-- A node without cycles, in which no number is not a number, has a copy that is structurally equal
to it and serializes to the same form, with the entries of all maps in the same order. At all places
the copy has nodes of the same kind and with the very same types. Copying the copy comes to the same
again, and is copying the node once more. What is shared in the node makes no difference: each cell
of the copy stands in one place, and a node that is made of the same parts, with more or fewer of
them shared, has the same copy. -/
theorem copyNode_keeps_all (ν : Type) {r : NodeRef} (hs : s.WellFormed)
    (hr : s.Comparable (.node r)) :
    ∃ c t, copyNode r s = .ok c t ∧ FaithfulCopy ν s r t c ∧
      (∃ c' t', copyNode c t = .ok c' t' ∧ copyNode r t = .ok c' t' ∧
        FaithfulCopy ν t c t' c' ∧ FaithfulCopy ν t r t' c') ∧
      (t.censusTo s.depthBound (.node c)).Nodup ∧
      ∀ m, s.Has (.node m) → Twin s (.node r) (.node m) → copyNode m s = .ok c t := by
  obtain ⟨c, t, hrun, he, ht, hcopied, hcensus⟩ := copyNode_copied ν hs hr
  have hc := hcopied.copy.comparable hs he hr
  have hr' := hr.extend hs he
  obtain ⟨c', t', hrun', -, -, hcopied', -⟩ := copyNode_copied ν ht hc
  obtain ⟨c'', t'', hrun'', -, -, hcopied'', -⟩ := copyNode_copied ν ht hr'
  have htwin := hcopied.copy.twin hs he (hr.ends hs) hr.has
  have hsame : copyNode c t = copyNode r t := htwin.copyNode_eq ht hr'.has hc.has
  obtain ⟨rfl, rfl⟩ : c'' = c' ∧ t'' = t' := by
    rw [hrun', hrun''] at hsame
    cases hsame
    exact ⟨rfl, rfl⟩
  exact ⟨c, t, hrun, hcopied, ⟨c'', t'', hrun', hrun'', hcopied', hcopied''⟩, hcensus,
    fun m hm h => (h.copyNode_eq hs hr.has hm).trans hrun⟩

/-- Two roses, and two vases with the same label: in the one stands one of the roses on both sides,
in the other a rose on each. -/
def Store.vases : Store :=
  let s := (initial.allocNode (Builtin.node "rose" Builtin.property .plain)).2
  let s := (s.allocNode (Builtin.node "rose" Builtin.property .plain)).2
  let s := (s.allocList [.str "red", .int 2]).2
  let s := (s.allocNode { Builtin.node "vase" Builtin.property .plain with
    value := .list ⟨0⟩, children := .ofList [("left", ⟨8⟩), ("right", ⟨8⟩)] }).2
  (s.allocNode { Builtin.node "vase" Builtin.property .plain with
    value := .list ⟨0⟩, children := .ofList [("left", ⟨8⟩), ("right", ⟨9⟩)] }).2

theorem Store.vases_wellFormed : vases.WellFormed :=
  initial_wellFormed.allocNode (by decide) rfl (by decide)
    |>.allocNode (by decide) rfl (by decide)
    |>.allocList (by decide)
    |>.allocNode (by decide) rfl (by decide)
    |>.allocNode (by decide) rfl (by decide)

theorem Store.vases_twin : Twin vases (.node ⟨10⟩) (.node ⟨11⟩) := by
  have hsame : Twin vases (.node ⟨8⟩) (.node ⟨8⟩) := .node rfl rfl (.scalar rfl) (.scalar rfl)
    (fun _ => rfl) fun role => by cases role <;> exact .nil
  have hother : Twin vases (.node ⟨8⟩) (.node ⟨9⟩) := .node rfl rfl (.scalar rfl) (.scalar rfl)
    (fun role => by cases role <;> rfl) fun role => by cases role <;> exact .nil
  refine .node rfl rfl (.list (.cons (.scalar rfl) (.cons (.scalar rfl) .nil))) (.scalar rfl)
    (fun role => by cases role <;> rfl) fun role => ?_
  cases role with
  | children => exact .cons hsame (.cons hother .nil)
  | metadata => exact .nil
  | constraints => exact .nil

/-- The copies of both vases have a rose on each side. -/
theorem vases_copied : ∃ t, copyNode ⟨10⟩ vases = .ok ⟨14⟩ t ∧ copyNode ⟨11⟩ vases = .ok ⟨14⟩ t ∧
    (t.node ⟨14⟩).children.toList = [("left", ⟨12⟩), ("right", ⟨13⟩)] ∧
    FaithfulCopy NodeRef vases ⟨10⟩ t ⟨14⟩ ∧
    ∃ c t', copyNode ⟨14⟩ t = .ok c t' ∧ FaithfulCopy NodeRef t ⟨14⟩ t' c := by
  have hend : EndsWithin vases.parts 3 (.node ⟨10⟩) := by decide
  have hr : vases.Comparable (.node ⟨10⟩) := ⟨by decide, hend.acyclic, fun u => Store.not_isNaN
    vases_wellFormed (by decide) (by decide) (by decide) (by decide) (by decide) u⟩
  obtain ⟨c, t, hrun, hcopied, ⟨c', t', hrun', -, hcopied', -⟩, -, hshared⟩ :=
    copyNode_keeps_all NodeRef vases_wellFormed hr
  obtain ⟨t₀, hrun₀, hsides⟩ : ∃ t, copyNode ⟨10⟩ vases = .ok ⟨14⟩ t ∧
      (t.node ⟨14⟩).children.toList = [("left", ⟨12⟩), ("right", ⟨13⟩)] := ⟨_, rfl, rfl⟩
  obtain ⟨rfl, rfl⟩ := EStateM.Result.ok.inj (hrun₀.symm.trans hrun)
  exact ⟨t₀, hrun, hshared ⟨11⟩ (by decide) vases_twin, hsides, hcopied, c', t', hrun', hcopied'⟩

end LiveTree
