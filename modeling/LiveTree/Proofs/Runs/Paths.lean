import LiveTree.Eval.Evaluate
import LiveTree.Proofs.Runs.Operators

/-! References in two runs, and whole evaluations. Both runs walk along nodes that belong together,
up to values that do; so every evaluation in a context of standard operators is tracked by one in a
context that goes with it. -/

namespace LiveTree

open Correspondence

variable {α : Type} {C : Correspondence} {s s' t : Store} {v w : Value} {eval eval' : Evaluator}
  {c c' : Context} {r r' : NodeRef}

/-! ### Nodes -/

/-- Nodes that belong together hold what does. -/
theorem node_tracks (hC : C.Lawful) (hr : C.Paired s r r') :
    C.Tracks s (fun s' n n' => n.Related (C.values s') n') (EvalM.read (·.node r))
      (EvalM.read (·.node r')) :=
  .read fun _ _ hs ht => hC.nodes ht (hr.later hC hs)

/-- A segment leads to entries that belong together. -/
theorem find_matches {R : Store → α → α → Prop} {m m' : Entries α} (h : m.Related (R s) m')
    (seg : Segment) : Matches (Option.Rel (R s)) (seg.find m) (seg.find m') := by
  cases seg with
  | name k => exact .ok (h.get? k)
  | foreign hashable =>
    cases hashable with
    | true => exact .ok .none
    | false => exact .error nofun

theorem find_tracks (hC : C.Lawful) {n n' : Node} (hn : n.Related (C.values s) n') (role : Role)
    (seg : Segment) :
    C.Tracks s C.Found (EvalM.ofExcept (seg.find (n.entries role)))
      (EvalM.ofExcept (seg.find (n'.entries role))) :=
  .ofExcept fun _ hs => find_matches (R := C.Paired)
    ((hn.entries role).imp fun _ _ hq => hC.later hq hs) seg

/-- The parent that is known of a node is the one that is known of the other. -/
theorem known_found (hC : C.Lawful) {known known' : List (NodeRef × Option NodeRef)}
    (hknown : List.Forall₂ (fun e e' => C.Paired s e.1 e'.1 ∧ C.Found s e.2 e'.2) known known')
    (hr : C.Paired s r r') :
    Option.Rel (fun e e' => C.Found s e.2 e'.2) (known.find? (·.1 = r))
      (known'.find? (·.1 = r')) := by
  induction hknown with
  | nil => exact .none
  | @cons e e' rest rest' he _ ih =>
    have hsame := hC.same he.1 hr
    rw [List.find?_cons, List.find?_cons]
    by_cases hhere : e.1 = r
    · rw [decide_eq_true hhere, decide_eq_true (hsame.mp hhere)]
      exact .some he.2
    · rw [decide_eq_false hhere, decide_eq_false (mt hsame.mpr hhere)]
      exact ih

/-- Parents that belong together are found in both runs. -/
theorem parent_tracks (hC : C.Lawful) (hc : C.Contexts s c c') (hr : C.Paired s r r') :
    C.Tracks s C.Found (EvalM.check (c.parent · r)) (EvalM.check (c'.parent · r')) := by
  refine .check fun s' t hs ht => ?_
  have hc' := hc.later hC hs
  have hr := hr.later hC hs
  have hlookup := hc'.lookup
  unfold Context.parent
  generalize c.lookup = l at hlookup
  generalize c'.lookup = l' at hlookup
  cases hlookup with
  | none => exact hC.parent ht hr hc'.root
  | @some l l' hl =>
    have hknown := known_found hC hl.known hr
    have hroot := hl.root
    dsimp only [Lookup.parent]
    generalize l.known.find? (·.1 = r) = e at hknown
    generalize l'.known.find? (·.1 = r') = e' at hknown
    cases hknown with
    | some he => exact .ok he
    | none =>
      dsimp only
      generalize l.root = root at hroot
      generalize l'.root = root' at hroot
      cases hroot with
      | some hroot => exact hC.parent ht hr hroot
      | none => exact .ok .none

/-! ### Loop variables -/

theorem field_computes (hC : C.Lawful) (ht : C.stores s t) (hr : C.Paired s r r') (word : String) :
    s.Later (s.field r word).2 ∧ C.stores (s.field r word).2 (t.field r' word).2 ∧
      C.values (s.field r word).2 (s.field r word).1 (t.field r' word).1 := by
  have hn := hC.nodes ht hr
  have hsame : ∀ {v w : Value}, C.values s v w → s.Later s ∧ C.stores s t ∧ C.values s v w :=
    fun hv => ⟨.refl s, ht, hv⟩
  have hdict : ∀ role, s.Later (s.nodeDict ((s.node r).entries role)).2 ∧
      C.stores (s.nodeDict ((s.node r).entries role)).2
        (t.nodeDict ((t.node r').entries role)).2 ∧
      C.values (s.nodeDict ((s.node r).entries role)).2 (s.nodeDict ((s.node r).entries role)).1
        (t.nodeDict ((t.node r').entries role)).1 := fun role =>
    ⟨Store.later_allocDict _, hC.newDict ht (Entries.Related.map (hn.entries role))⟩
  unfold Store.field
  dsimp only
  split
  · exact hsame hn.default
  · split
    · exact hsame hn.value
    · exact hsame hn.type
    · rw [hn.id]
      exact hsame (hC.scalar s rfl)
    · exact hdict .children
    · exact hdict .metadata
    · exact hdict .constraints
    · exact hsame (hC.scalar s rfl)
    · exact hsame (hC.scalar s rfl)

/-- One of the elements that belong together, or nothing in both runs. -/
theorem element_tracks (hC : C.Lawful) {l l' : List Value} (hl : List.Forall₂ (C.values s) l l')
    (seg : Segment) :
    C.Tracks s (fun s' => Option.Rel (C.values s'))
      (do match ← EvalM.ofExcept seg.index? with
        | some i => return some (l.getD i .none)
        | none => return none)
      (do match ← EvalM.ofExcept seg.index? with
        | some i => return some (l'.getD i .none)
        | none => return none) := by
  refine .bind (R := fun _ i j => j = i)
    (.ofExcept fun _ _ => .of_eq rfl seg.tame_index? fun _ _ => rfl) ?_
  rintro s₁ _ i hs rfl
  cases i with
  | none => exact .pure fun _ _ => .none
  | some i =>
    refine .pure fun s₂ hs₂ => .some (hC.later ?_ (hs.trans hs₂))
    induction hl generalizing i with
    | nil => exact hC.scalar s rfl
    | cons hv _ ih =>
      cases i with
      | zero => exact hv
      | succ i => exact ih i

theorem bindingStep_tracks (hC : C.Lawful) (hv : C.values s v w) (seg : Segment) :
    C.Tracks s (fun s' => Option.Rel (C.values s')) (bindingStep v seg) (bindingStep w seg) := by
  cases hC.sort hv with
  | @scalar v hcell =>
    cases v with
    | none | bool | int | float | str => exact .pure fun _ _ => .none
    | _ => cases hcell
  | list a b =>
    exact .bind (.read fun _ _ hs ht => hC.list ht (hC.later hv hs)) fun _ _ _ _ hl =>
      element_tracks hC hl seg
  | tuple a b =>
    exact .bind (.read fun _ _ hs ht => hC.tuple ht (hC.later hv hs)) fun _ _ _ _ hl =>
      element_tracks hC hl seg
  | dict a b =>
    refine .bind (.read fun _ _ hs ht => hC.dict ht (hC.later hv hs)) fun s₁ m m' hs₁ hm => ?_
    refine .bind (R := fun s' => Option.Rel (C.values s'))
      (.ofExcept fun s' hs => find_matches (R := C.values) (Maps.later hC hm hs) seg)
      fun s₂ found found' _ hfound => .pure fun s₃ hs₃ => ?_
    cases hfound with
    | some hx => exact .some (hC.later hx hs₃)
    | none => exact .some (hC.scalar s₃ rfl)
  | node a b =>
    cases seg with
    | name word =>
      refine .bind (.update fun s' t hs ht => field_computes hC ht (hC.later hv hs) word)
        fun s₁ x y hs₁ hxy => ?_
      exact .pure fun s₂ hs₂ => .some (hC.later hxy hs₂)
    | foreign hashable =>
      cases hashable with
      | true => exact .pure fun s' _ => .some (hC.scalar s' rfl)
      | false => exact .fail nofun

theorem followBinding_tracks (hC : C.Lawful) (hv : C.values s v w) (segs : List Segment) :
    C.Tracks s C.values (followBinding v segs) (followBinding w segs) := by
  induction segs generalizing s v w with
  | nil => exact .pure fun _ hs => hC.later hv hs
  | cons seg rest ih =>
    refine .bind (bindingStep_tracks hC hv seg) fun s₁ x y hs₁ hxy => ?_
    cases hxy with
    | some hxy => exact ih hxy
    | none => exact .pure fun s' _ => hC.scalar s' rfl

/-! ### Paths -/

section

variable (hC : C.Lawful) (heval : C.Evaluators eval eval')

include hC heval

theorem settle_tracks (hc : C.Contexts s c c') {current current' owner owner' : NodeRef}
    (hcurrent : C.Paired s current current') (howner : C.Paired s owner owner') :
    C.Tracks s C.values (settle eval c current owner) (settle eval' c' current' owner') := by
  refine .bind (node_tracks hC hcurrent) fun s₁ n n' hs₁ hn => ?_
  have hfocus := (hc.later hC hs₁).focus (howner.later hC hs₁)
  have hvalue := hn.value
  rw [hn.kind]
  split
  · exact heval _ _ _ _ _ hfocus (hcurrent.later hC hs₁)
  · generalize n.value = v at hvalue
    generalize n'.value = v' at hvalue
    cases hC.sort hvalue with
    | @scalar v hcell =>
      cases v with
      | none => exact .pure fun s' hs => hcurrent.later hC (hs₁.trans hs)
      | node => cases hcell
      | _ => exact .pure fun s' hs => hC.later hvalue hs
    | node => exact heval _ _ _ _ _ hfocus hvalue
    | _ => exact .pure fun s' hs => hC.later hvalue hs

theorem ownValue_tracks (hc : C.Contexts s c c') {current current' owner owner' : NodeRef}
    (hcurrent : C.Paired s current current') (howner : C.Paired s owner owner') :
    C.Tracks s C.values (ownValue eval c current owner) (ownValue eval' c' current' owner') := by
  refine .bind (node_tracks hC hcurrent) fun s₁ n n' hs₁ hn => ?_
  have hfocus := (hc.later hC hs₁).focus (howner.later hC hs₁)
  have hvalue := hn.value
  have hexpression : C.Tracks s₁ C.values (eval (c.focus owner) current)
      (eval' (c'.focus owner') current') := heval _ _ _ _ _ hfocus (hcurrent.later hC hs₁)
  rw [hn.kind]
  generalize n.value = v at hvalue
  generalize n'.value = v' at hvalue
  cases hC.sort hvalue with
  | @scalar v hcell =>
    cases v with
    | none => exact .pure fun s' _ => hC.scalar s' rfl
    | node => cases hcell
    | _ =>
      dsimp only
      split
      exacts [hexpression, .pure fun s' hs => hC.later hvalue hs]
  | node =>
    dsimp only
    split
    exacts [hexpression, heval _ _ _ _ _ hfocus hvalue]
  | _ =>
    dsimp only
    split
    exacts [hexpression, .pure fun s' hs => hC.later hvalue hs]

theorem walk_tracks (hc : C.Contexts s c c') {current current' : Option NodeRef}
    {owner owner' : NodeRef} (hcurrent : C.Found s current current')
    (howner : C.Paired s owner owner') (segs : List Segment) :
    C.Tracks s C.values (walk eval c current owner segs) (walk eval' c' current' owner' segs) := by
  induction segs using Segment.path_induction generalizing s current current' owner owner' with
  | nil =>
    cases hcurrent with
    | none => exact .pure fun s' _ => hC.scalar s' rfl
    | some hcurrent => exact settle_tracks hC heval hc hcurrent howner
  | cons seg rest ih =>
    cases hcurrent with
    | none => exact .pure fun s' _ => hC.scalar s' rfl
    | @some current current' hcurrent =>
      have hsame := List.suffix_refl rest
      rw [walk, walk]
      refine .bind (node_tracks hC hcurrent) fun s₁ node node' hs₁ hnode => ?_
      have hc₁ := hc.later hC hs₁
      have hcurrent₁ := hcurrent.later hC hs₁
      have howner₁ := howner.later hC hs₁
      -- an entry that has been found, with the owner that it gets
      have hentry : ∀ {s₂ found found'}, s₁.Later s₂ → C.Found s₂ found found' →
          ∀ {owner owner'}, C.Paired s₁ owner owner' → ∀ later, later <:+ rest →
          C.Tracks s₂ C.values (walk eval c found owner later)
            (walk eval' c' found' owner' later) :=
        fun hs₂ hfound owner owner' howner later hlater =>
          ih later hlater (hc₁.later hC hs₂) hfound (howner.later hC hs₂)
      have hself : ∀ {s₂ found found'}, s₁.Later s₂ → C.Found s₂ found found' →
          ∀ {owner owner'}, C.Paired s₁ owner owner' → ∀ later, later <:+ rest →
          C.Tracks s₂ C.values (walk eval c found (found.getD owner) later)
            (walk eval' c' found' (found'.getD owner') later) := by
        intro s₂ found found' hs₂ hfound owner owner' howner later hlater
        refine ih later hlater (hc₁.later hC hs₂) hfound ?_
        cases hfound with
        | none => exact howner.later hC hs₂
        | some hq => exact hq
      split
      · exact ownValue_tracks hC heval hc₁ hcurrent₁ howner₁
      · exact ih rest hsame hc₁ (.some hnode.type) hnode.type
      · rw [hnode.id]
        exact .pure fun s' _ => hC.scalar s' rfl
      · split
        · exact .pure fun s' _ => hC.scalar s' rfl
        · refine .bind (find_tracks hC hnode .children _) fun s₂ found found' hs₂ hfound => ?_
          exact hself hs₂ hfound howner₁ _ (List.suffix_cons _ _)
      · split
        · exact .pure fun s' _ => hC.scalar s' rfl
        · refine .bind (find_tracks hC hnode .metadata _) fun s₂ found found' hs₂ hfound => ?_
          exact hentry hs₂ hfound hcurrent₁ _ (List.suffix_cons _ _)
      · split
        · exact .pure fun s' _ => hC.scalar s' rfl
        · refine .bind (find_tracks hC hnode .constraints _) fun s₂ found found' hs₂ hfound => ?_
          exact hentry hs₂ hfound hcurrent₁ _ (List.suffix_cons _ _)
      · refine .bind (parent_tracks hC hc₁ hcurrent₁) fun s₂ found found' hs₂ hfound => ?_
        exact hself hs₂ hfound howner₁ rest hsame
      · refine .bind (find_tracks hC hnode .children _) fun s₂ child child' hs₂ hchild => ?_
        cases hchild with
        | some hchild => exact ih rest hsame (hc₁.later hC hs₂) (.some hchild) hchild
        | none =>
          have hnode₂ := hnode.imp fun _ _ hv => hC.later hv hs₂
          refine .bind (find_tracks hC hnode₂ .metadata _) fun s₃ entry entry' hs₃ hfound => ?_
          cases hfound with
          | some hq => exact hentry (hs₂.trans hs₃) (.some hq) hcurrent₁ rest hsame
          | none => exact .pure fun s' _ => hC.scalar s' rfl

theorem resolveSegments_tracks (hc : C.Contexts s c c') (segs : List Segment) :
    C.Tracks s C.values (resolveSegments eval c segs) (resolveSegments eval' c' segs) := by
  cases segs with
  | nil => exact .pure fun s' _ => hC.scalar s' rfl
  | cons start rest =>
    have hwalk : ∀ {s₁ r r'}, s.Later s₁ → C.Paired s₁ r r' → ∀ segs,
        C.Tracks s₁ C.values (walk eval c (some r) r segs) (walk eval' c' (some r') r' segs) :=
      fun hs₁ hr segs => walk_tracks hC heval (hc.later hC hs₁) (.some hr) hr segs
    rw [resolveSegments, resolveSegments]
    split
    · exact hwalk (.refl s) hc.current rest
    · split
      · exact hwalk (.refl s) hc.root rest
      · split
        · refine .bind (parent_tracks hC hc hc.current) fun s₁ found found' hs₁ hfound => ?_
          cases hfound with
          | some hp => exact hwalk hs₁ hp rest
          | none => cases rest <;> exact .pure fun s' _ => hC.scalar s' rfl
        · have hself := hwalk (.refl s) hc.current (start :: rest)
          have hbindings := hc.bindings
          generalize c.bindings = m at hbindings
          generalize c'.bindings = m' at hbindings
          cases hbindings with
          | none => exact hself
          | some hm =>
            refine .bind (R := fun s' => Option.Rel (C.values s'))
              (.ofExcept fun s' hs => find_matches (R := C.values) (Maps.later hC hm hs) start)
              fun s₁ bound bound' hs₁ hb => ?_
            cases hb with
            | some hv => exact followBinding_tracks hC hv rest
            | none => exact hself.later hs₁

theorem resolvePath_tracks (hc : C.Contexts s c c') (hv : C.values s v w) :
    C.Tracks s C.values (resolvePath eval c v) (resolvePath eval' c' w) := by
  refine .bind (R := fun _ x y => y = x) (.check fun s' t hs ht => ?_) ?_
  · exact .of_eq (hC.segments ht (hC.later hv hs)) (s'.tame_segments v) fun _ _ => rfl
  · rintro s₁ _ segs hs₁ rfl
    exact resolveSegments_tracks hC heval (hc.later hC hs₁) segs

end

/-! ### Evaluations -/

theorem orderedArguments_tracks (hC : C.Lawful) (hr : C.Paired s r r') :
    C.Tracks s (fun s' => List.Forall₂ (C.Paired s')) (orderedArguments r) (orderedArguments r') :=
  fun _ _ hs ht => hC.arguments ht (hr.later hC hs)

/-- Every evaluation in a context of standard operators is tracked by one that goes with it, with so
many levels left. -/
theorem evaluateWithin_tracks [Host] (hC : C.Lawful) (n : Nat) :
    C.Evaluators (evaluateWithin n) (evaluateWithin n) := by
  induction n with
  | zero => exact fun _ _ _ _ _ _ _ => .fail nofun
  | succ n ih =>
    intro s c c' r r' hc hr
    rw [evaluateWithin, evaluateWithin]
    refine .bind (node_tracks hC hr) fun s₁ node node' hs₁ hnode => ?_
    have hc₁ := hc.later hC hs₁
    rw [hnode.kind, hnode.id]
    split
    · exact resolvePath_tracks hC ih hc₁.deeper hnode.value
    · rw [hc.registry]
      cases hop : c.registry.get? node.id with
      | none => exact .fail nofun
      | some op =>
        obtain ⟨op, rfl⟩ := hc.standard _ _ hop
        refine .bind (orderedArguments_tracks hC (hr.later hC hs₁)) fun s₂ args args' hs₂ hargs => ?_
        exact op.apply_tracks hC ih (hc₁.later hC hs₂).deeper hargs
    · exact .pure fun s' hs => hC.later hnode.value hs

/-- So is an evaluation with all the levels that its context leaves, from one depth. -/
theorem evaluate_tracks [Host] (hC : C.Lawful) (hc : C.Contexts s c c') (hdepth : c'.depth = c.depth)
    (hr : C.Paired s r r') : C.Tracks s C.values (evaluate c r) (evaluate c' r') := by
  intro s' t hs ht
  have hstep := evaluateWithin_tracks hC (maxDepth - c.depth).toNat s c c' r r' hc hr s' t hs ht
  rw [evaluate, evaluate, hdepth, EvalM.mapFault, EvalM.mapFault]
  generalize evaluateWithin (maxDepth - c.depth).toNat c r s' = x at hstep
  generalize evaluateWithin (maxDepth - c.depth).toNat c' r' t = y at hstep
  cases hstep with
  | done hs ht h => exact .done hs ht h
  | failed hs ht he =>
    refine .failed hs ht ?_
    unfold Fault.orTooDeep
    split
    exacts [nofun, he]

end LiveTree
