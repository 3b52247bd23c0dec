import LiveTree.Proofs.Tree.Gathering

/-! What a batch does. A course of changes at and below a wrapper leaves the same forest in a batch
at the wrapper as without. If it returns, the subscribers of the wrapper and of those that hear of it
are told once, of all paths that they would have been offered, each where it came first. If it fails,
they are not told at all. Everybody else is told what they would have been told, and in the end
nobody holds back who did not before. -/

namespace LiveTree

variable {σ : Type} {f : Forest} {w : WrapperRef}

theorem Telling.calls_of_nil {t : Telling} (h : t.paths = []) : t.calls = [] := by
  rw [calls, h, List.filterMap_eq_nil_iff]
  intro x _
  have hnone : x.admitted [] = [] := by
    rw [Subscriber.admitted]
    split <;> rfl
  simp [Subscriber.call?, hnone]

namespace Change

mutual

theorem Within.mono {S T : WrapperRef → Prop} (h : ∀ v, S v → T v) :
    ∀ {c : Change}, c.Within S → c.Within T
  | revise _ _, hc => ⟨h _ hc.1, hc.2⟩
  | descend _ _, hc => h _ hc
  | abort _, _ => trivial
  | batch _ _, hc => ⟨h _ hc.1, AllWithin.mono h hc.2⟩

theorem AllWithin.mono {S T : WrapperRef → Prop} (h : ∀ v, S v → T v) :
    ∀ {cs : List Change}, AllWithin S cs → AllWithin T cs
  | [], _ => trivial
  | _ :: _, hcs => ⟨Within.mono h hcs.1, AllWithin.mono h hcs.2⟩

end

end Change

/-- What is told elsewhere than at a wrapper and above. -/
def toldElsewhere (f : Forest) (w : WrapperRef) (told : List Telling) : List Telling :=
  told.filter fun t => t.wrapper ∉ w :: f.ancestors w

/-- What a batch tells at its end, if without it this would have been told: along the line, all that
has been offered, each path where it came first. -/
def toldOnce (f : Forest) (w : WrapperRef) (told : List Telling) : List Telling :=
  (f.line w).map fun q =>
    { wrapper := q.1
      subscribers := (f.wrapper q.1).subscribers
      paths := (offered told q.1).eraseDups }

theorem Gathers.start (hr : f.Ready w) : Gathers f w f.holding ⟨f, []⟩
    (World.hold ⟨f, []⟩ w (some [])) where
  steady := .refl hr.kept w
  holding := rfl
  held := ⟨[], rfl⟩
  told := rfl
  along _ _ := rfl
  gathered := by
    have hopen := Forest.batched_of_holding (hr.quiet w List.mem_cons_self)
    rw [World.collected_hold hr.made, Forest.collected, hopen]
    rfl

/-- The line of the wrapper is offered what has been offered, once more but each path once. -/
theorem Gathers.tellings_eq {i : WrapperRef → Bool} {x y : World (List Telling)}
    (h : Gathers f w i x y) (hr : f.Ready w) (hw : i w = false) :
    x.forest.tellings (f.line w) (offered x.user w).eraseDups = toldOnce f w x.user := by
  have hopen := hr.open_line h.steady ((congrFun h.holding w).trans hw)
  rw [Forest.tellings, Forest.audience_eq_self hopen, toldOnce]
  refine List.map_congr_left fun q hq => ?_
  have hsubscribers : (x.forest.wrapper q.1).subscribers = (f.wrapper q.1).subscribers := by
    rcases List.mem_cons.mp (Forest.mem_of_mem_line hq) with e | ha
    · obtain ⟨cache, held, hself⟩ := h.steady.self
      rw [e, hself]
    · rw [h.steady.before _ (Forest.lt_of_mem_ancestors hr.kept.toOrdered ha)]
  rw [hsubscribers, h.along q hq, eraseDups_map (List.append_right_injective q.2)]

/-- Once the wrapper holds nothing back, the worlds differ only in what has been told. -/
theorem Beside.closed {i : WrapperRef → Bool} {x y : World (List Telling)}
    (h : Beside f w i x y) (hr : f.Ready w) (hw : i w = false) :
    y.hold w none = ⟨x.forest, toldElsewhere f w x.user⟩ := by
  have hopen := hr.open_line h.steady ((congrFun h.holding w).trans hw)
  obtain ⟨held, e⟩ := h.held
  rw [World.hold, World.withForest, e, Forest.withHeld_withHeld,
    Forest.withHeld_eq_self (hopen _ (f.mem_line_self w)), h.told]
  rfl

/-- What the end of a batch announces. -/
theorem Gathers.ending {i : WrapperRef → Bool} {x y : World (List Telling)}
    (h : Gathers f w i x y) (hr : f.Ready w) (hw : i w = false) :
    ∃ told, TreeM.announceAny TreeM.logging w (y.forest.collected w).eraseDups (y.hold w none) =
        .ok () ⟨x.forest, told⟩ ∧
      told.flatMap Telling.calls =
        (toldElsewhere f w x.user ++ toldOnce f w x.user).flatMap Telling.calls := by
  have hopen := hr.open_line h.steady ((congrFun h.holding w).trans hw)
  have hnone : (x.forest.wrapper w).batched = none := hopen _ (f.mem_line_self w)
  have hcollected : (y.forest.collected w).eraseDups = (offered x.user w).eraseDups := by
    rw [h.gathered, Forest.collected, hnone]
    simp
  rw [hcollected, h.closed hr hw, TreeM.announceAny]
  cases hempty : (offered x.user w).eraseDups.isEmpty with
  | true =>
    refine ⟨_, rfl, ?_⟩
    have hnobody : (toldOnce f w x.user).flatMap Telling.calls = [] := by
      rw [← h.tellings_eq hr hw, List.isEmpty_iff.mp hempty, List.flatMap_eq_nil_iff]
      intro t ht
      obtain ⟨q, -, rfl⟩ := List.mem_map.mp ht
      exact Telling.calls_of_nil rfl
    rw [List.flatMap_append, hnobody, List.append_nil]
  | false =>
    refine ⟨toldElsewhere f w x.user ++ toldOnce f w x.user, ?_, rfl⟩
    have hline := h.steady.line_eq hr.wellFormed hr.kept.toOrdered
    show EStateM.Result.ok () (TreeM.logged (x.forest.line w) _ _) = _
    rw [hline, TreeM.logged, Forest.collect_eq_self _ hopen, h.tellings_eq hr hw]

namespace TreeM

/-- A course of changes at and below a wrapper that does not hold back, nor does any wrapper above.
What the subscribers are told when it runs is what its log says. In a batch at the wrapper it leaves
the same forest. If it returns, those elsewhere are told the same, and at the end the subscribers of
the wrapper and of those that hear of it are told once, of all paths that they are offered without
the batch, each where it came first, as far as any passes their filter. If it fails, only those
elsewhere are told. In the end nobody holds back who did not before. A destroyed wrapper does not
run it. -/
theorem batch_gathers (h : f.Arises true) (hf : f.WellFormed) (hw : w.index < f.wrappers.size)
    (hquiet : ∀ a ∈ w :: f.ancestors w, (f.wrapper a).batched = none) {body : List Change}
    (hbody : Change.AllWithin (f.Beneath w) body) (note : σ → Call → σ) (u : σ) :
    match (f.wrapper w).destroyed, Change.runAll logging body ⟨f, []⟩ with
    | true, _ => batch (noting note) w (Change.performAll (noting note) body) ⟨f, u⟩ =
      .error (.destroyed (f.nodeAt w).id) ⟨f, u⟩
    | false, .ok _ ⟨g, told⟩ =>
      Change.performAll (noting note) body ⟨f, u⟩ =
        .ok () ⟨g, (told.flatMap Telling.calls).foldl note u⟩ ∧
      batch (noting note) w (Change.performAll (noting note) body) ⟨f, u⟩ = .ok () ⟨g,
        ((toldElsewhere f w told ++ toldOnce f w told).flatMap Telling.calls).foldl note u⟩ ∧
      g.holding = f.holding
    | false, .error e ⟨g, told⟩ =>
      Change.performAll (noting note) body ⟨f, u⟩ =
        .error e ⟨g, (told.flatMap Telling.calls).foldl note u⟩ ∧
      batch (noting note) w (Change.performAll (noting note) body) ⟨f, u⟩ = .error e ⟨g,
        ((toldElsewhere f w told).flatMap Telling.calls).foldl note u⟩ ∧
      g.holding = f.holding := by
  have hr : f.Ready w := ⟨h.kept, hf, hw, fun a ha => by rw [Forest.holding, hquiet a ha]; rfl⟩
  have hopen : f.holding w = false := hr.quiet w List.mem_cons_self
  have hall : Change.AllWithin (fun _ => True) body := hbody.mono fun _ _ => trivial
  have hrecorded : Recorded note u f.holding ⟨f, []⟩ ⟨f, u⟩ := ⟨h.kept, rfl, rfl, rfl⟩
  have hplain := (Recorded.twins note u).runAll_mirrors body hall
  have hbatch := (Recorded.twins note u).batches w trivial hplain f.holding _ hw
  have hgathers := (Gathers.twins hr).runAll_mirrors body hbody f.holding
  rw [Change.performAll_eq_runAll, batch_eq]
  cases hlive : (f.wrapper w).destroyed with
  | true => exact batchWith_of_destroyed hlive
  | false =>
  cases hrun : Change.runAll logging body ⟨f, []⟩ with
  | ok a x =>
    obtain ⟨y, hrun', hend⟩ := hgathers.ok (.start hr) hrun
    obtain ⟨told, hannounce, hcalls⟩ := hend.ending hr hopen
    have hlogged : batchWith logging w (Change.runAll logging body) ⟨f, []⟩ =
        .ok () ⟨x.forest, told⟩ := by
      rw [batchWith_of_ok hlive hopen hrun', bind_of_ok hannounce]
      rfl
    obtain ⟨z, hz, hplainly⟩ := (hplain f.holding).ok hrecorded hrun
    obtain ⟨z', hz', hbatched⟩ := hbatch.ok ⟨hrecorded, Nat.le_refl _⟩ hlogged
    refine ⟨?_, ?_, hplainly.holding⟩
    · rw [hz, hplainly.eq]
    · rw [hz', hbatched.eq, hcalls]
  | error e x =>
    obtain ⟨y, hrun', hend⟩ := hgathers.error (.start hr) hrun
    have hlogged : batchWith logging w (Change.runAll logging body) ⟨f, []⟩ =
        .error e ⟨x.forest, toldElsewhere f w x.user⟩ := by
      rw [batchWith_of_error hlive hopen hrun', hend.closed hr hopen]
    obtain ⟨z, hz, hplainly⟩ := (hplain f.holding).error hrecorded hrun
    obtain ⟨z', hz', hbatched⟩ := hbatch.error ⟨hrecorded, Nat.le_refl _⟩ hlogged
    refine ⟨?_, ?_, hplainly.holding⟩
    · rw [hz, hplainly.eq]
    · rw [hz', hbatched.eq]

end TreeM

/-- The city is set twice and described, the second time in a batch of the address. -/
def cityCourse : List Change :=
  [.revise ⟨2⟩ (.setValue (.str "Lund") [] false),
    .batch ⟨1⟩ [.revise ⟨2⟩ (.setEntry .metadata "hint" Builtin.lit false),
      .revise ⟨1⟩ (.setValue (.str "Turku") ["city"] false)]]

theorem cityCourse_within : Change.AllWithin (Forest.listeningForm.Beneath ⟨1⟩) cityCourse :=
  ⟨⟨by decide, trivial⟩,
    ⟨by decide, ⟨by decide, (fun h => nomatch h)⟩, ⟨by decide, trivial⟩, trivial⟩, trivial⟩

theorem cityCourse_gathers : ∃ g,
    Change.performAll (TreeM.noting fun l c => l ++ [c]) cityCourse ⟨Forest.listeningForm, []⟩ =
      .ok () ⟨g, [(2, ["city"]), (0, ["address.city"]), (2, ["city.metadata.hint", "city"]),
        (0, ["address.city.metadata.hint", "address.city"]), (1, ["address.city.metadata.hint"])]⟩ ∧
    TreeM.batch (TreeM.noting fun l c => l ++ [c]) ⟨1⟩
      (Change.performAll (TreeM.noting fun l c => l ++ [c]) cityCourse) ⟨Forest.listeningForm, []⟩ =
      .ok () ⟨g, [(2, ["city", "city.metadata.hint"]),
        (0, ["address.city", "address.city.metadata.hint"]),
        (1, ["address.city.metadata.hint"])]⟩ := by
  have hlog : ∃ g told, Change.runAll TreeM.logging cityCourse ⟨Forest.listeningForm, []⟩ =
        .ok () ⟨g, told⟩ ∧
      told.flatMap Telling.calls = [(2, ["city"]), (0, ["address.city"]),
        (2, ["city.metadata.hint", "city"]), (0, ["address.city.metadata.hint", "address.city"]),
        (1, ["address.city.metadata.hint"])] ∧
      (toldElsewhere Forest.listeningForm ⟨1⟩ told ++
        toldOnce Forest.listeningForm ⟨1⟩ told).flatMap Telling.calls =
        [(2, ["city", "city.metadata.hint"]), (0, ["address.city", "address.city.metadata.hint"]),
          (1, ["address.city.metadata.hint"])] := ⟨_, _, rfl, rfl, rfl⟩
  obtain ⟨g, told, hrun, hplain, honce⟩ := hlog
  have hlive : (Forest.listeningForm.wrapper ⟨1⟩).destroyed = false := rfl
  have hgathers := TreeM.batch_gathers (Forest.listeningForm_arises true)
    Forest.listeningForm_wellFormed (by decide) (by decide) cityCourse_within (fun l c => l ++ [c])
    ([] : List Call)
  rw [hlive, hrun] at hgathers
  obtain ⟨hrun', hbatch, -⟩ := hgathers
  rw [hplain] at hrun'
  rw [honce] at hbatch
  exact ⟨g, hrun', hbatch⟩

end LiveTree
