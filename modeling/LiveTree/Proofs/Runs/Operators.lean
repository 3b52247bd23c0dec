import LiveTree.Proofs.Runs.Correspondence

/-! The standard operators in two runs. An operator looks at the values of its arguments only in
ways in which values that belong together are alike, so with evaluators that track each other it
tracks itself. -/

namespace LiveTree

namespace Correspondence

variable {α β γ : Type} {C : Correspondence} {s s' t : Store} {v w a a' b b' : Value}

/-! ### What is alike in values that belong together -/

namespace Lawful

variable (hC : C.Lawful)

include hC

theorem isNone_eq (h : C.values s v w) : w.isNone = v.isNone := (hC.sort h).isNone_eq

theorem scalar?_eq (h : C.values s v w) : w.scalar? = v.scalar? := by
  cases hC.sort h <;> rfl

theorem count?_eq (h : C.values s v w) : w.count? = v.count? := by
  cases hC.sort h <;> rfl

theorem textOrEmpty_eq (h : C.values s v w) : w.textOrEmpty = v.textOrEmpty := by
  cases hC.sort h <;> rfl

theorem orZero (h : C.values s v w) : C.values s v.orZero w.orZero := by
  cases hC.sort h with
  | @scalar v hv =>
    cases v with
    | none => exact hC.scalar s rfl
    | _ => exact h
  | _ => exact h

theorem truthy_eq (hst : C.stores s t) (h : C.values s v w) : t.truthy w = s.truthy v := by
  have hempty : ∀ {l l' : List Value}, List.Forall₂ (C.values s) l l' → l'.isEmpty = l.isEmpty :=
    fun hl => by cases hl <;> rfl
  cases hC.sort h with
  | @scalar v hv => cases v <;> first | rfl | cases hv
  | node => rfl
  | list a b =>
    have hab := hempty (hC.list hst h)
    simp only [Store.truthy, hab]
  | tuple a b =>
    have hab := hempty (hC.tuple hst h)
    simp only [Store.truthy, hab]
  | dict a b =>
    have hab := (hC.dict hst h).isEmpty_eq
    simp only [Store.truthy, hab]

theorem valueText_eq (hst : C.stores s t) (h : C.values s v w) : t.valueText w = s.valueText v := by
  have htext := hC.text hst h
  cases hC.sort h with
  | @scalar v hv =>
    cases v with
    | bool b => cases b <;> rfl
    | none | int | float | str => rfl
    | _ => cases hv
  | _ => exact htext

theorem elements (hst : C.stores s t) (h : C.values s v w) :
    List.Forall₂ (C.values s) (s.elements v) (t.elements w) := by
  cases hC.sort h with
  | @scalar v hv => cases v <;> first | exact .nil | cases hv
  | node | dict => exact .nil
  | list => exact hC.list hst h
  | tuple => exact hC.tuple hst h

end Lawful

/-! ### Arithmetic -/

/-- Whether results come with stores, later than the first one, that correspond and see the values
belong together, or are one fault. -/
abbrev Computes (C : Correspondence) (s : Store) : Except Fault (Value × Store) →
    Except Fault (Value × Store) → Prop :=
  Matches fun p q => s.Later p.2 ∧ C.stores p.2 q.2 ∧ C.values p.2 p.1 q.1

section

variable (hC : C.Lawful) (hst : C.stores s t)

include hC hst

theorem computes_scalar (hv : v.cell? = none) : C.Computes s (.ok (v, s)) (.ok (v, t)) :=
  .ok ⟨.refl s, hst, hC.scalar s hv⟩

theorem computes_newList {l l' : List Value} (hl : List.Forall₂ (C.values s) l l') :
    C.Computes s (.ok (s.newList l)) (.ok (t.newList l')) :=
  .ok ⟨Store.later_allocList l, hC.newList hst hl⟩

theorem computes_newTuple {l l' : List Value} (hl : List.Forall₂ (C.values s) l l') :
    C.Computes s (.ok (s.newTuple l)) (.ok (t.newTuple l')) :=
  .ok ⟨Store.later_allocTuple l, hC.newTuple hst hl⟩

/-- A number that is worked out from numbers is the same in both runs. -/
theorem computes_number {r : Except Fault γ} (hr : Tame r) {f : γ → Value}
    (hf : ∀ x, (f x).cell? = none) :
    C.Computes s (do return (f (← r), s)) (do return (f (← r), t)) := by
  cases r with
  | ok x => exact computes_scalar hC hst (hf x)
  | error e => exact .error (hr e rfl)

theorem computes_add (ha : C.values s a a') (hb : C.values s b b') :
    C.Computes s (s.add a b) (t.add a' b') := by
  unfold Store.add
  rw [hC.scalar?_eq ha, hC.scalar?_eq hb]
  split
  · exact computes_number hC hst (Number.Scalar.tame_combine _ _ _ _) fun x => by cases x <;> rfl
  · cases hC.sort ha with
    | @scalar a hcell =>
      cases hC.sort hb with
      | scalar =>
        split
        · exact computes_scalar hC hst rfl
        · cases hcell
        · cases hcell
        · exact .error nofun
      | _ => cases a <;> first | exact .error nofun | cases hcell
    | list x x' =>
      cases hC.sort hb with
      | @scalar b hcell => cases b <;> first | exact .error nofun | cases hcell
      | list y y' => exact computes_newList hC hst (List.rel_append (hC.list hst ha) (hC.list hst hb))
      | _ => exact .error nofun
    | tuple x x' =>
      cases hC.sort hb with
      | @scalar b hcell => cases b <;> first | exact .error nofun | cases hcell
      | tuple y y' =>
        exact computes_newTuple hC hst (List.rel_append (hC.tuple hst ha) (hC.tuple hst hb))
      | _ => exact .error nofun
    | dict | node => cases hC.sort hb <;> exact .error nofun

theorem computes_subtract (ha : C.values s a a') (hb : C.values s b b') :
    C.Computes s (s.subtract a b) (t.subtract a' b') := by
  unfold Store.subtract
  rw [hC.scalar?_eq ha, hC.scalar?_eq hb]
  split
  · exact computes_number hC hst (Number.Scalar.tame_combine _ _ _ _) fun x => by cases x <;> rfl
  · exact .error nofun

theorem computes_divide (ha : C.values s a a') (hb : C.values s b b') :
    C.Computes s (s.divide a b) (t.divide a' b') := by
  unfold Store.divide
  rw [hC.scalar?_eq ha, hC.scalar?_eq hb]
  split
  · exact computes_number hC hst (Number.Scalar.tame_divide _ _) fun _ => rfl
  · exact .error nofun

/-- A sequence is repeated as often in both runs, or refused for its length. -/
theorem computes_repeatValue (n : Int) (ha : C.values s a a') :
    C.Computes s (s.repeatValue n a) (t.repeatValue n a') := by
  have hrepeated : ∀ {l l' : List Value}, List.Forall₂ (C.values s) l l' →
      List.Forall₂ (C.values s) (repeated n l) (repeated n l') := by
    intro l l' hl
    rw [repeated, repeated, show l'.isEmpty = l.isEmpty by cases hl <;> rfl]
    split
    · exact .nil
    · generalize n.toNat = k
      induction k with
      | zero => exact .nil
      | succ k ih =>
        simp only [List.replicate_succ, List.flatten_cons]
        exact List.rel_append hl ih
  have hchecked : ∀ {e : Fault} {length : Nat} {r r' : Except Fault (Value × Store)}, e.Tame →
      C.Computes s r r' → C.Computes s (checkCount e n length >>= fun _ => r)
        (checkCount e n length >>= fun _ => r') := fun he hr =>
    (Matches.of_eq (T := fun _ _ => True) rfl (tame_checkCount he _ _) fun _ _ => trivial).bind
      fun _ _ _ => hr
  cases hC.sort ha with
  | @scalar a hcell =>
    cases a with
    | str x => exact hchecked (e := .tooLarge) nofun (computes_scalar hC hst rfl)
    | _ => first | exact .error nofun | cases hcell
  | list x x' =>
    have hl := hC.list hst ha
    rw [Store.repeatValue, Store.repeatValue, ← hl.length_eq]
    exact hchecked (e := .outOfMemory) nofun (computes_newList hC hst (hrepeated hl))
  | tuple x x' =>
    have hl := hC.tuple hst ha
    rw [Store.repeatValue, Store.repeatValue, ← hl.length_eq]
    exact hchecked (e := .outOfMemory) nofun (computes_newTuple hC hst (hrepeated hl))
  | dict | node => exact .error nofun

theorem computes_multiply (ha : C.values s a a') (hb : C.values s b b') :
    C.Computes s (s.multiply a b) (t.multiply a' b') := by
  unfold Store.multiply
  rw [hC.scalar?_eq ha, hC.scalar?_eq hb, hC.count?_eq ha, hC.count?_eq hb]
  split
  · exact computes_number hC hst (Number.Scalar.tame_combine _ _ _ _) fun x => by cases x <;> rfl
  · split
    · exact computes_repeatValue hC hst _ hb
    · exact computes_repeatValue hC hst _ ha
    · exact .error nofun

end

/-! ### Loop variables -/

namespace Contexts

variable {c c' : Context}

/-- More loop variables over those that there are. -/
theorem withBindings (h : C.Contexts s c c') {l l' : List (String × Value)}
    (hl : List.Forall₂ (fun p q => q.1 = p.1 ∧ C.values s p.2 q.2) l l') :
    C.Contexts s (c.withBindings (.ofList l)) (c'.withBindings (.ofList l')) := by
  have hold : C.Maps s c.loopVariables c'.loopVariables := by
    have hbindings := h.bindings
    rw [Context.loopVariables, Context.loopVariables]
    generalize c.bindings = m at hbindings
    generalize c'.bindings = m' at hbindings
    cases hbindings with
    | some hm => exact hm
    | none => exact .empty
  exact { h with bindings := .some (hold.insertAll (Entries.Related.ofList hl).pairs) }

/-- The loop variables for an element of a collection. -/
theorem forItem (hC : C.Lawful) (h : C.Contexts s c c') (hv : C.values s v w) (i : Nat) :
    C.Contexts s (c.withBindings (.ofList [("item", v), ("index", .int i)]))
      (c'.withBindings (.ofList [("item", w), ("index", .int i)])) :=
  h.withBindings (.cons ⟨rfl, hv⟩ (.cons ⟨rfl, hC.scalar s rfl⟩ .nil))

end Contexts

end Correspondence

/-! ### Operators -/

namespace StandardOp

open Correspondence

variable {α β : Type} {C : Correspondence} {s : Store} {eval eval' : Evaluator} {c c' : Context}

/-- Arguments in the same places of two lists belong together. -/
theorem argument_paired {args args' : List NodeRef} (hargs : List.Forall₂ (C.Paired s) args args')
    (i : Nat) : C.Found s args[i]? args'[i]? := by
  induction hargs generalizing i with
  | nil => exact .none
  | cons hr _ ih =>
    cases i with
    | zero => exact .some hr
    | succ i => exact ih i

theorem body_tracks {args args' : List NodeRef} (hargs : List.Forall₂ (C.Paired s) args args')
    (i : Nat) (hC : C.Lawful) : C.Tracks s C.Paired (body args i) (body args' i) := by
  have hpaired := argument_paired hargs i
  rw [body, body]
  generalize args[i]? = o at hpaired
  generalize args'[i]? = o' at hpaired
  cases hpaired with
  | some hr => exact .pure fun s' hs => hr.later hC hs
  | none => exact .fail nofun

/-- A computation on each element of a collection, with its index. -/
theorem eachIndexed_tracks {R : Store → α → β → Prop} {f : Nat → Value → EvalM α}
    {g : Nat → Value → EvalM β} (hC : C.Lawful)
    (hR : ∀ s s' a b, R s a b → s.Later s' → R s' a b)
    (h : ∀ s' i v w, s.Later s' → C.values s' v w → C.Tracks s' R (f i v) (g i w)) (i : Nat)
    {l l' : List Value} (hl : List.Forall₂ (C.values s) l l') :
    C.Tracks s (fun s' => List.Forall₂ (R s')) (eachIndexed f i l) (eachIndexed g i l') := by
  induction l generalizing s i l' with
  | nil =>
    cases hl
    exact .pure fun _ _ => .nil
  | cons v rest ih =>
    cases hl with
    | cons hv hrest =>
      refine .bind (h s i v _ (.refl s) hv) fun s₁ a b hs₁ hab => ?_
      have hrest₁ := hrest.imp fun _ _ hvw => hC.later hvw hs₁
      refine .bind (ih (fun s' i v w hs => h s' i v w (hs₁.trans hs)) (i + 1) hrest₁)
        fun s₂ as bs hs₂ has => ?_
      exact .pure fun s₃ hs₃ => .cons (hR _ _ _ _ hab (hs₂.trans hs₃))
        (has.imp fun _ _ hab => hR _ _ _ _ hab hs₃)

/-- Arguments that belong together go on to do so. -/
theorem paired_later {args args' : List NodeRef} {s' : Store} (hC : C.Lawful)
    (hargs : List.Forall₂ (C.Paired s) args args') (hs : s.Later s') :
    List.Forall₂ (C.Paired s') args args' := hargs.imp fun _ _ hr => hr.later hC hs

/-- Whether a value counts as true is the same in both runs. -/
theorem truth_tracks {v w : Value} (hC : C.Lawful) (hv : C.values s v w) :
    C.Tracks s (fun _ x y => y = x) (EvalM.read (·.truthy v)) (EvalM.read (·.truthy w)) :=
  .read fun _ _ hs ht => hC.truthy_eq ht (hC.later hv hs)

section

variable {args args' : List NodeRef} (hC : C.Lawful) (heval : C.Evaluators eval eval')
  (hc : C.Contexts s c c') (hargs : List.Forall₂ (C.Paired s) args args')

include hC heval hc hargs

theorem argument_tracks (i : Nat) :
    C.Tracks s C.values (argument eval c args i) (argument eval' c' args' i) := by
  have hpaired := argument_paired hargs i
  rw [argument, argument]
  generalize args[i]? = o at hpaired
  generalize args'[i]? = o' at hpaired
  cases hpaired with
  | some hr => exact heval s c c' _ _ hc hr
  | none => exact .pure fun s' _ => hC.scalar s' rfl

/-- What is done with the values of the first two arguments. -/
theorem operands_track {R : Store → α → β → Prop} {k : Value → Value → EvalM α}
    {k' : Value → Value → EvalM β}
    (hk : ∀ s' a a' b b', s.Later s' → C.values s' a a' → C.values s' b b' →
      C.Tracks s' R (k a b) (k' a' b')) :
    C.Tracks s R
      (do let a ← argument eval c args 0; let b ← argument eval c args 1; k a b)
      (do let a ← argument eval' c' args' 0; let b ← argument eval' c' args' 1; k' a b) := by
  refine .bind (argument_tracks hC heval hc hargs 0) fun s₁ a a' hs₁ ha => ?_
  refine .bind (argument_tracks hC heval (hc.later hC hs₁) (paired_later hC hargs hs₁) 1)
    fun s₂ b b' hs₂ hb => ?_
  exact hk s₂ a a' b b' (hs₁.trans hs₂) (hC.later ha hs₂) hb

theorem arithmetic_tracks {f : Store → Value → Value → Except Fault (Value × Store)}
    (hf : ∀ {s t a a' b b'}, C.stores s t → C.values s a a' → C.values s b b' →
      C.Computes s (f s a b) (f t a' b')) :
    C.Tracks s C.values (arithmetic eval c args f) (arithmetic eval' c' args' f) :=
  operands_track hC heval hc hargs fun _ _ _ _ _ _ ha hb => .attempt fun _ _ hs ht =>
    hf ht (hC.orZero (hC.later ha hs)) (hC.orZero (hC.later hb hs))

theorem quotient_tracks : C.Tracks s C.values (quotient eval c args) (quotient eval' c' args') := by
  refine operands_track hC heval hc hargs fun s₁ a a' b b' _ ha hb => ?_
  refine .bind (truth_tracks hC hb) ?_
  rintro s₂ yes _ hs₂ rfl
  split
  · refine .attempt fun s' t hs ht => ?_
    have hlater := hs₂.trans hs
    exact computes_divide hC ht (hC.orZero (hC.later ha hlater)) (hC.later hb hlater)
  · exact .pure fun s' _ => hC.scalar s' rfl

theorem comparison_tracks {f : Store → Value → Value → Except Fault Bool}
    (hf : ∀ {s t a a' b b'}, C.stores s t → C.values s a a' → C.values s b b' →
      f t a' b' = f s a b) (htame : ∀ s a b, Tame (f s a b)) :
    C.Tracks s C.values (comparison eval c args f) (comparison eval' c' args' f) := by
  refine operands_track hC heval hc hargs fun s₁ a a' b b' _ ha hb => ?_
  refine .bind (R := fun _ x y => y = x) (.check fun s' t hs ht => ?_) ?_
  · refine .of_eq ?_ (tame_lenient (htame s' a b)) fun _ _ => rfl
    rw [hf ht (hC.later ha hs) (hC.later hb hs)]
  · rintro s₂ x _ - rfl
    exact .pure fun s' _ => hC.scalar s' rfl

theorem ofFirst_tracks {f : Store → Value → Except Fault Value}
    (hf : ∀ {s t v w}, C.stores s t → C.values s v w → Matches (C.values s) (f s v) (f t w)) :
    C.Tracks s C.values (ofFirst eval c args f) (ofFirst eval' c' args' f) :=
  .bind (argument_tracks hC heval hc hargs 0) fun _ _ _ _ hv => .check fun _ _ hs ht =>
    hf ht (hC.later hv hs)

theorem choose_tracks :
    C.Tracks s C.values (apply eval c args choose) (apply eval' c' args' choose) := by
  refine .bind (argument_tracks hC heval hc hargs 0) fun s₁ v w hs₁ hv => ?_
  refine .bind (truth_tracks hC hv) ?_
  rintro s₂ yes _ hs₂ rfl
  have hs := hs₁.trans hs₂
  have harguments := argument_tracks hC heval (hc.later hC hs) (paired_later hC hargs hs)
  split
  exacts [harguments 1, harguments 2]

theorem concat_tracks :
    C.Tracks s C.values (apply eval c args concat) (apply eval' c' args' concat) := by
  refine .bind (.mapM (S := C.values) (fun _ _ _ _ => hC.later) (hargs.imp fun r r' hr =>
    heval s c c' r r' hc hr)) fun s₁ vs ws hs₁ hvs => ?_
  refine .bind (R := fun _ x y => y = x) (.check fun s' t hs ht => ?_) ?_
  · have hvs' : List.Forall₂ (C.values s') vs ws := hvs.imp fun _ _ hv => hC.later hv hs
    refine .of_eq ?_ (.mapM s'.tame_shownText vs) fun _ _ => rfl
    exact mapM_congr_forall₂ (hvs'.imp fun _ _ hv => hC.text ht hv)
  · rintro s₂ texts _ - rfl
    exact .pure fun s' _ => hC.scalar s' rfl

theorem includes_tracks :
    C.Tracks s C.values (apply eval c args includes) (apply eval' c' args' includes) := by
  refine operands_track hC heval hc hargs fun s₁ a a' b b' _ ha hb => .pure fun s' _ => ?_
  cases hC.sort ha with
  | @scalar a hcell =>
    cases hC.sort hb with
    | scalar => exact hC.scalar s' rfl
    | _ => cases a <;> exact hC.scalar s' rfl
  | _ => exact hC.scalar s' rfl

theorem collection_tracks :
    C.Tracks s (fun s' => List.Forall₂ (C.values s')) (collection eval c args)
      (collection eval' c' args') :=
  .bind (argument_tracks hC heval hc hargs 0) fun _ _ _ _ hv => .read fun _ _ hs ht =>
    hC.elements ht (hC.later hv hs)

theorem mapped_tracks : C.Tracks s C.values (mapped eval c args) (mapped eval' c' args') := by
  refine .bind (collection_tracks hC heval hc hargs) fun s₁ items items' hs₁ hitems => ?_
  refine .bind (body_tracks (paired_later hC hargs hs₁) 1 hC) fun s₂ r r' hs₂ hr => ?_
  have hc₂ := hc.later hC (hs₁.trans hs₂)
  refine .bind (eachIndexed_tracks (R := C.values) hC (fun _ _ _ _ => hC.later)
    (fun s' i v w hs hv => ?_) 0 (hitems.imp fun _ _ hv => hC.later hv hs₂))
    fun s₃ vs ws hs₃ hvs => .update fun s' t hs ht => ?_
  · exact heval s' _ _ r r' ((hc₂.later hC hs).forItem hC hv i) (hr.later hC hs)
  · exact ⟨Store.later_allocList vs, hC.newList ht (hvs.imp fun _ _ hv => hC.later hv hs)⟩

theorem filtered_tracks : C.Tracks s C.values (filtered eval c args) (filtered eval' c' args') := by
  refine .bind (collection_tracks hC heval hc hargs) fun s₁ items items' hs₁ hitems => ?_
  refine .bind (body_tracks (paired_later hC hargs hs₁) 1 hC) fun s₂ r r' hs₂ hr => ?_
  have hc₂ := hc.later hC (hs₁.trans hs₂)
  refine .bind (eachIndexed_tracks (R := fun s' => List.Forall₂ (C.values s')) hC
    (fun _ _ _ _ hvs hs => hvs.imp fun _ _ hv => hC.later hv hs)
    (fun s' i v w hs hv => ?_) 0 (hitems.imp fun _ _ hv => hC.later hv hs₂))
    fun s₃ vss wss hs₃ hvss => .update fun s' t hs ht => ?_
  · refine .bind (heval s' _ _ r r' ((hc₂.later hC hs).forItem hC hv i) (hr.later hC hs))
      fun s₃ x y hs₃ hxy => ?_
    refine .bind (truth_tracks hC hxy) ?_
    rintro s₄ yes _ hs₄ rfl
    refine .pure fun s₅ hs₅ => ?_
    split
    exacts [.cons (hC.later hv ((hs₃.trans hs₄).trans hs₅)) .nil, .nil]
  · refine ⟨Store.later_allocList _, hC.newList ht ?_⟩
    have hflat : ∀ {l : List (List Value)} {l' : List (List Value)},
        List.Forall₂ (List.Forall₂ (C.values s₃)) l l' →
        List.Forall₂ (C.values s') l.flatten l'.flatten := by
      intro l l' hl
      induction hl with
      | nil => exact .nil
      | cons hvs _ ih => exact List.rel_append (hvs.imp fun _ _ hv => hC.later hv hs) ih
    exact hflat hvss

end

theorem conjunction_tracks {args args' : List NodeRef} (hC : C.Lawful) (heval : C.Evaluators eval eval')
    (hc : C.Contexts s c c') (hargs : List.Forall₂ (C.Paired s) args args') :
    C.Tracks s C.values (conjunction eval c args) (conjunction eval' c' args') := by
  induction args generalizing s args' with
  | nil =>
    cases hargs
    exact .pure fun s' _ => hC.scalar s' rfl
  | cons r rest ih =>
    obtain - | ⟨hr, hrest⟩ := hargs
    refine .bind (heval s c c' r _ hc hr) fun s₁ v w hs₁ hv => .bind (truth_tracks hC hv) ?_
    rintro s₂ yes _ hs₂ rfl
    have hs := hs₁.trans hs₂
    split
    exacts [ih (hc.later hC hs) (paired_later hC hrest hs), .pure fun s' _ => hC.scalar s' rfl]

theorem disjunction_tracks {args args' : List NodeRef} (hC : C.Lawful) (heval : C.Evaluators eval eval')
    (hc : C.Contexts s c c') (hargs : List.Forall₂ (C.Paired s) args args') :
    C.Tracks s C.values (disjunction eval c args) (disjunction eval' c' args') := by
  induction args generalizing s args' with
  | nil =>
    cases hargs
    exact .pure fun s' _ => hC.scalar s' rfl
  | cons r rest ih =>
    obtain - | ⟨hr, hrest⟩ := hargs
    refine .bind (heval s c c' r _ hc hr) fun s₁ v w hs₁ hv => .bind (truth_tracks hC hv) ?_
    rintro s₂ yes _ hs₂ rfl
    have hs := hs₁.trans hs₂
    split
    exacts [.pure fun s' _ => hC.scalar s' rfl, ih (hc.later hC hs) (paired_later hC hrest hs)]

/-- The fold goes through both collections at the same pace, with accumulators that belong
together. -/
theorem folded_tracks {r r' : NodeRef} {acc acc' : Value} {l l' : List Value} (hC : C.Lawful)
    (heval : C.Evaluators eval eval') (hc : C.Contexts s c c') (hr : C.Paired s r r')
    (hacc : C.values s acc acc') (i : Nat) (hl : List.Forall₂ (C.values s) l l') :
    C.Tracks s C.values (folded eval c r acc i l) (folded eval' c' r' acc' i l') := by
  induction l generalizing s acc acc' i l' with
  | nil =>
    cases hl
    exact .pure fun s' hs => hC.later hacc hs
  | cons v rest ih =>
    cases hl with
    | @cons _ w _ _ hv hrest =>
      have hc' : C.Contexts s
          (c.withBindings (.ofList [("acc", acc), ("item", v), ("index", .int i)]))
          (c'.withBindings (.ofList [("acc", acc'), ("item", w), ("index", .int i)])) :=
        hc.withBindings
          (.cons ⟨rfl, hacc⟩ (.cons ⟨rfl, hv⟩ (.cons ⟨rfl, hC.scalar s rfl⟩ .nil)))
      refine .bind (heval s _ _ r r' hc' hr) fun s₁ x y hs₁ hxy => ?_
      exact ih (hc.later hC hs₁) (hr.later hC hs₁) hxy (i + 1)
        (hrest.imp fun _ _ hv => hC.later hv hs₁)

section

variable {args args' : List NodeRef} (hC : C.Lawful) (heval : C.Evaluators eval eval')
  (hc : C.Contexts s c c') (hargs : List.Forall₂ (C.Paired s) args args')

include hC heval hc hargs

theorem reduced_tracks : C.Tracks s C.values (reduced eval c args) (reduced eval' c' args') := by
  refine .bind (collection_tracks hC heval hc hargs) fun s₁ items items' hs₁ hitems => ?_
  refine .bind (body_tracks (paired_later hC hargs hs₁) 1 hC) fun s₂ r r' hs₂ hr => ?_
  have hs := hs₁.trans hs₂
  refine .bind (argument_tracks hC heval (hc.later hC hs) (paired_later hC hargs hs) 2)
    fun s₃ acc acc' hs₃ hacc => ?_
  exact folded_tracks hC heval (hc.later hC (hs.trans hs₃)) (hr.later hC hs₃) hacc 0
    (hitems.imp fun _ _ hv => hC.later hv (hs₂.trans hs₃))

/-- Every standard operator tracks itself. -/
theorem apply_tracks (op : StandardOp) :
    C.Tracks s C.values (op.apply eval c args) (op.apply eval' c' args') := by
  have htext : ∀ f : List Char → List Char,
      C.Tracks s C.values (ofText eval c args f) (ofText eval' c' args' f) := fun f =>
    ofFirst_tracks hC heval hc hargs fun _ hv =>
      hC.textOrEmpty_eq hv ▸ .ok (hC.scalar _ rfl)
  cases op with
  | add => exact arithmetic_tracks hC heval hc hargs (computes_add hC)
  | sub => exact arithmetic_tracks hC heval hc hargs (computes_subtract hC)
  | mul => exact arithmetic_tracks hC heval hc hargs (computes_multiply hC)
  | div => exact quotient_tracks hC heval hc hargs
  | eq => exact comparison_tracks hC heval hc hargs hC.equal fun s => s.tame_equalTo _
  | neq =>
    refine comparison_tracks hC heval hc hargs (fun ht ha hb => ?_) fun s a b =>
      (s.tame_equalTo _ a b).map _
    rw [hC.equal ht ha hb]
  | lt => exact comparison_tracks hC heval hc hargs (hC.order .lt) fun s => s.tame_orderTo _ _
  | lte => exact comparison_tracks hC heval hc hargs (hC.order .le) fun s => s.tame_orderTo _ _
  | gt => exact comparison_tracks hC heval hc hargs (hC.order .gt) fun s => s.tame_orderTo _ _
  | gte => exact comparison_tracks hC heval hc hargs (hC.order .ge) fun s => s.tame_orderTo _ _
  | and => exact conjunction_tracks hC heval hc hargs
  | or => exact disjunction_tracks hC heval hc hargs
  | not =>
    refine ofFirst_tracks hC heval hc hargs fun ht hv => ?_
    rw [hC.truthy_eq ht hv]
    exact .ok (hC.scalar _ rfl)
  | choose => exact choose_tracks hC heval hc hargs
  | concat => exact concat_tracks hC heval hc hargs
  | toText =>
    refine ofFirst_tracks hC heval hc hargs fun ht hv => ?_
    rw [hC.text ht hv]
    refine .of_eq rfl ((Store.tame_shownText _ _).map _) fun a ha => ?_
    cases hr : Store.shownText _ _ with
    | ok x => rw [hr] at ha; cases ha; exact hC.scalar _ rfl
    | error e => rw [hr] at ha; cases ha
  | textLength =>
    exact ofFirst_tracks hC heval hc hargs fun _ hv => hC.textOrEmpty_eq hv ▸ .ok (hC.scalar _ rfl)
  | includes => exact includes_tracks hC heval hc hargs
  | upper => exact htext _
  | lower => exact htext _
  | trim => exact htext _
  | isNotNull =>
    exact ofFirst_tracks hC heval hc hargs fun _ hv => hC.isNone_eq hv ▸ .ok (hC.scalar _ rfl)
  | isNotBlank =>
    exact ofFirst_tracks hC heval hc hargs fun _ hv => hC.textOrEmpty_eq hv ▸ .ok (hC.scalar _ rfl)
  | map => exact mapped_tracks hC heval hc hargs
  | filter => exact filtered_tracks hC heval hc hargs
  | reduce => exact reduced_tracks hC heval hc hargs

end

end StandardOp

end LiveTree
