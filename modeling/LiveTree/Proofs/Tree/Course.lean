import LiveTree.Proofs.Tree.Held
import LiveTree.Proofs.Tree.Mirror

/-! Courses of changes, with batches inside one another. How changes are announced is left open, so
that the same course can be run with the listeners of a program, and with a log of what each wrapper
tells its subscribers. With listeners that change nothing, the log says all that they are told. -/

namespace LiveTree

variable {σ τ α β : Type}

/-- How changed paths are announced at a wrapper. -/
abbrev Announcer (σ : Type) : Type := WrapperRef → List Path → TreeM σ Unit

namespace TreeM

/-- Carries out an operation at a wrapper that has been made. There are no others to ask. -/
def ifMade (w : WrapperRef) (m : TreeM σ Unit) : TreeM σ Unit := do
  if decide (w.index < (← forest).wrappers.size) = true then m

/-- Announces paths, if there are any. -/
def announceAny (announce : Announcer σ) (w : WrapperRef) (paths : List Path) : TreeM σ Unit :=
  unless paths.isEmpty do announce w paths

/-- Runs a body with notifications held back at a wrapper, with any way to announce them. -/
def batchWith (announce : Announcer σ) (w : WrapperRef) (body : TreeM σ α) : TreeM σ α := do
  checkAlive w
  if ((← forest).wrapper w).batched.isSome then body
  else do
    setBatched w (some [])
    let result ← tryCatch body fun e => do
      setBatched w none
      throw e
    let held := (((← forest).wrapper w).batched.getD []).eraseDups
    setBatched w none
    unless held.isEmpty do announce w held
    return result

theorem batch_eq (notify : Notify σ) (w : WrapperRef) (body : TreeM σ α) :
    batch notify w body = batchWith (emit notify) w body := rfl

/-- What is left when what is told along a line has been written down. -/
def logged (line : List Station) (paths : List Path) (x : World (List Telling)) :
    World (List Telling) where
  forest := x.forest.collect line paths
  user := x.user ++ x.forest.tellings line paths

theorem logged_append {x : World (List Telling)} {between : List Station}
    (h : ∀ q ∈ between, (x.forest.wrapper q.1).batched = none) (line : List Station)
    (paths : List Path) :
    logged (between ++ line) paths x = logged line paths (logged between paths x) := by
  simp only [logged, Forest.tellings_append h, Forest.collect_append h, Forest.collect_eq_self _ h,
    List.append_assoc]

theorem logged_append_of_held {x : World (List Telling)} {between : List Station}
    (h : ∃ q ∈ between, (x.forest.wrapper q.1).batched.isSome = true) (line : List Station)
    (paths : List Path) : logged (between ++ line) paths x = logged between paths x := by
  simp only [logged, Forest.tellings_append_of_held h, Forest.collect_append_of_held h]

theorem logged_under (line : List Station) (keys : Path) (paths : List Path)
    (x : World (List Telling)) :
    logged (line.map (·.under keys)) paths x = logged line (paths.map (keys ++ ·)) x := by
  simp only [logged, Forest.tellings_under, Forest.collect_under]

/-- Writes down what is told along the line of a wrapper. -/
def logging : Announcer (List Telling) := fun w paths =>
  modify fun x => logged (x.forest.line w) paths x

end TreeM

/-! ### Courses -/

/-- A change in the course of a batch: a change of a node, a look at a node further down, a failure,
or a batch with a course of its own. -/
inductive Change where
  | revise (w : WrapperRef) (e : Revision)
  | descend (w : WrapperRef) (path : Path)
  | abort (e : Fault)
  | batch (w : WrapperRef) (body : List Change)

namespace Change

mutual

/-- Carries out a change. -/
def perform (notify : Notify σ) : Change → TreeM σ Unit
  | revise w e => TreeM.ifMade w (e.perform notify w)
  | descend w path => TreeM.ifMade w do let _ ← TreeM.descend w path
  | abort e => throw e
  | batch w body => TreeM.ifMade w (TreeM.batch notify w (performAll notify body))

/-- Carries out changes one after another. -/
def performAll (notify : Notify σ) : List Change → TreeM σ Unit
  | [] => return
  | c :: rest => do
    perform notify c
    performAll notify rest

end

mutual

/-- Carries out a change with any way to announce it. -/
def run (announce : Announcer σ) : Change → TreeM σ Unit
  | revise w e => TreeM.ifMade w do TreeM.announceAny announce w (← e.apply w)
  | descend w path => TreeM.ifMade w do let _ ← TreeM.descend w path
  | abort e => throw e
  | batch w body => TreeM.ifMade w (TreeM.batchWith announce w (runAll announce body))

/-- Carries out changes one after another, with any way to announce them. -/
def runAll (announce : Announcer σ) : List Change → TreeM σ Unit
  | [] => return
  | c :: rest => do
    run announce c
    runAll announce rest

end

mutual

/-- A change is carried out by announcing it to the listeners. -/
theorem perform_eq_run (notify : Notify σ) : ∀ c : Change,
    c.perform notify = c.run (TreeM.emit notify)
  | revise w e => by rw [perform, run, Revision.perform_eq]; rfl
  | descend w path => by rw [perform, run]
  | abort e => by rw [perform, run]
  | batch w body => by rw [perform, run, performAll_eq_runAll, TreeM.batch_eq]

theorem performAll_eq_runAll (notify : Notify σ) : ∀ cs : List Change,
    performAll notify cs = runAll (TreeM.emit notify) cs
  | [] => by rw [performAll, runAll]
  | c :: rest => by rw [performAll, runAll, perform_eq_run, performAll_eq_runAll]

end

mutual

/-- Whether a change is made at certain wrappers only, and leaves the children of all nodes. -/
def Within (S : WrapperRef → Prop) : Change → Prop
  | revise w e => S w ∧ e.LeavesChildren
  | descend w _ => S w
  | abort _ => True
  | batch w body => S w ∧ AllWithin S body

/-- Whether changes are made at certain wrappers only. -/
def AllWithin (S : WrapperRef → Prop) : List Change → Prop
  | [] => True
  | c :: rest => Within S c ∧ AllWithin S rest

end

end Change

/-! ### What a batch does -/

/-- A world in which a wrapper holds something else back, or nothing. -/
def World.hold (x : World σ) (w : WrapperRef) (held : Option (List Path)) : World σ :=
  x.withForest (x.forest.withHeld w held)

theorem World.collected_hold {x : World σ} {w : WrapperRef} (hw : w.index < x.forest.wrappers.size)
    (held : Option (List Path)) : (x.hold w held).forest.collected w = held.getD [] :=
  Forest.collected_withHeld_self hw held

namespace TreeM

variable {announce : Announcer σ} {v : WrapperRef} {x y : World σ} {body : TreeM σ α}

theorem checkAlive_of_destroyed (h : (x.forest.wrapper v).destroyed = true) :
    checkAlive v x = .error (.destroyed (x.forest.nodeAt v).id) x := by
  rw [checkAlive, forest_bind, h]
  rfl

/-- A destroyed wrapper runs nothing. -/
theorem batchWith_of_destroyed (h : (x.forest.wrapper v).destroyed = true) :
    batchWith announce v body x = .error (.destroyed (x.forest.nodeAt v).id) x := by
  rw [batchWith, bind_of_error (checkAlive_of_destroyed h)]

/-- A body inside another joins it. -/
theorem batchWith_of_holding (hlive : (x.forest.wrapper v).destroyed = false)
    (h : x.forest.holding v = true) : batchWith announce v body x = body x := by
  rw [batchWith, bind_of_ok (checkAlive_of_live hlive), forest_bind]
  exact congrFun (if_pos h) x

theorem batchWith_of_open (hlive : (x.forest.wrapper v).destroyed = false)
    (h : x.forest.holding v = false) : batchWith announce v body x = (do
      let result ← tryCatch body fun e => do
        setBatched v none
        throw e
      let held := (((← forest).wrapper v).batched.getD []).eraseDups
      setBatched v none
      unless held.isEmpty do announce v held
      return result) (x.hold v (some [])) := by
  rw [batchWith, bind_of_ok (checkAlive_of_live hlive), forest_bind]
  exact congrFun (if_neg (by simpa [Forest.holding] using h)) x

/-- When the body returns, what has been held back is announced, each path once. -/
theorem batchWith_of_ok {a : α} (hlive : (x.forest.wrapper v).destroyed = false)
    (h : x.forest.holding v = false) (hbody : body (x.hold v (some [])) = .ok a y) :
    batchWith announce v body x =
      (do announceAny announce v (y.forest.collected v).eraseDups; return a) (y.hold v none) := by
  rw [batchWith_of_open hlive h, bind_of_ok (tryCatch_of_ok hbody _), forest_bind, announceAny]
  show (if (y.forest.collected v).eraseDups.isEmpty = true then _ else _ : TreeM σ α) _ = _
  cases (y.forest.collected v).eraseDups.isEmpty <;> rfl

/-- When the body fails, nothing is held back any more and nothing is announced. -/
theorem batchWith_of_error {e : Fault} (hlive : (x.forest.wrapper v).destroyed = false)
    (h : x.forest.holding v = false) (hbody : body (x.hold v (some [])) = .error e y) :
    batchWith announce v body x = .error e (y.hold v none) := by
  rw [batchWith_of_open hlive h]
  refine bind_of_error ?_ _
  rw [tryCatch_of_error hbody]
  rfl

end TreeM

/-! ### Courses side by side -/

namespace TreeM

variable {S : WrapperRef → Prop} {R E : World σ → World τ → Prop} {v : WrapperRef} {n : ℕ}
variable {announce : Announcer σ} {announce' : Announcer τ}
variable {body : TreeM σ Unit} {body' : TreeM τ Unit}

theorem ifMade_mirrors (hR : Transparent S R) {m : TreeM σ Unit} {m' : TreeM τ Unit}
    (h : ∀ n, v.index < n → Mirrors (Made R n) m m' (fun _ => R) E) :
    Mirrors R (ifMade v m) (ifMade v m') (fun _ => R) E := by
  intro x y hxy
  rw [ifMade, ifMade, forest_bind, forest_bind, hR.size hxy]
  by_cases hmade : v.index < x.forest.wrappers.size
  · rw [if_pos (decide_eq_true hmade), if_pos (decide_eq_true hmade)]
    exact h _ hmade x y ⟨hxy, Nat.le_refl _⟩
  · rw [if_neg (by simpa using hmade), if_neg (by simpa using hmade)]
    exact ⟨rfl, hxy⟩

theorem announceAny_mirrors {paths : List Path}
    (h : Mirrors R (announce v paths) (announce' v paths) (fun _ => R) E) :
    Mirrors R (announceAny announce v paths) (announceAny announce' v paths) (fun _ => R) E := by
  rw [announceAny, announceAny]
  cases paths.isEmpty with
  | true => exact .pure fun _ _ hxy => hxy
  | false => exact h

/-- Batches are alike when both join another. -/
theorem batchWith_joined (hR : Transparent S R) (hE : ∀ x y, R x y → E x y)
    (hheld : ∀ x y, R x y → x.forest.holding v = true ∧ y.forest.holding v = true)
    (hbody : Mirrors R body body' (fun _ => R) E) :
    Mirrors R (batchWith announce v body) (batchWith announce' v body') (fun _ => R) E := by
  intro x y hxy
  cases hlive : (x.forest.wrapper v).destroyed with
  | true =>
    rw [batchWith_of_destroyed hlive, batchWith_of_destroyed (by rwa [hR.destroyed hxy]),
      hR.nodeAt hxy]
    exact ⟨rfl, hE x y hxy⟩
  | false =>
    obtain ⟨hx, hy⟩ := hheld x y hxy
    rw [batchWith_of_holding hlive hx, batchWith_of_holding (by rwa [hR.destroyed hxy]) hy]
    exact hbody x y hxy

/-- Batches are alike when both begin and the bodies and announcements are alike. -/
theorem batchWith_opened {P Q : World σ → World τ → Prop} (hR : Transparent S R)
    (hE : ∀ x y, R x y → E x y) (hheld : ∀ x y, Made R n x y →
      x.forest.holding v = false ∧ y.forest.holding v = false ∧
        P (x.hold v (some [])) (y.hold v (some [])))
    (hbody : Mirrors P body body' (fun _ => P) Q)
    (hclose : ∀ x y, P x y →
      y.forest.collected v = x.forest.collected v ∧ R (x.hold v none) (y.hold v none))
    (hfall : ∀ x y, Q x y → E (x.hold v none) (y.hold v none))
    (hannounce : ∀ paths, Mirrors R (announce v paths) (announce' v paths) (fun _ => R) E) :
    Mirrors (Made R n) (batchWith announce v body) (batchWith announce' v body')
      (fun _ => R) E := by
  intro x y hxy
  cases hlive : (x.forest.wrapper v).destroyed with
  | true =>
    rw [batchWith_of_destroyed hlive, batchWith_of_destroyed (by rwa [hR.destroyed hxy.1]),
      hR.nodeAt hxy.1]
    exact ⟨rfl, hE x y hxy.1⟩
  | false =>
    obtain ⟨hx, hy, hopen⟩ := hheld x y hxy
    have hlive' : (y.forest.wrapper v).destroyed = false := by rwa [hR.destroyed hxy.1]
    cases hrun : body (x.hold v (some [])) with
    | ok a x' =>
      obtain ⟨y', hrun', hx'⟩ := hbody.ok hopen hrun
      obtain ⟨hcollected, hclosed⟩ := hclose x' y' hx'
      rw [batchWith_of_ok hlive hx hrun, batchWith_of_ok hlive' hy hrun', hcollected]
      exact Mirrors.bind (announceAny_mirrors (hannounce _)) (fun _ => .pure fun _ _ h => h) _ _
        hclosed
    | error e x' =>
      obtain ⟨y', hrun', hx'⟩ := hbody.error hopen hrun
      rw [batchWith_of_error hlive hx hrun, batchWith_of_error hlive' hy hrun']
      exact ⟨rfl, hfall x' y' hx'⟩

end TreeM

/-- Whether two ways of announcing go together with relations between worlds, one for each answer to
who holds back, while a course runs and when it has failed. -/
structure Twins (S : WrapperRef → Prop) (R E : (WrapperRef → Bool) → World σ → World τ → Prop)
    (announce : Announcer σ) (announce' : Announcer τ) : Prop where
  transparent : ∀ i, Transparent S (R i)
  fails : ∀ i x y, R i x y → E i x y
  announces : ∀ i v paths, S v →
    Mirrors (R i) (announce v paths) (announce' v paths) (fun _ => R i) (E i)
  batches : ∀ v {body : TreeM σ Unit} {body' : TreeM τ Unit}, S v →
    (∀ i, Mirrors (R i) body body' (fun _ => R i) (E i)) → ∀ i n, v.index < n →
    Mirrors (Made (R i) n) (TreeM.batchWith announce v body) (TreeM.batchWith announce' v body')
      (fun _ => R i) (E i)

namespace Twins

variable {S : WrapperRef → Prop} {R E : (WrapperRef → Bool) → World σ → World τ → Prop}
variable {announce : Announcer σ} {announce' : Announcer τ}

mutual

/-- A change mirrors itself under ways of announcing that go together. -/
theorem run_mirrors (h : Twins S R E announce announce') : ∀ (c : Change), c.Within S → ∀ i,
    Mirrors (R i) (c.run announce) (c.run announce') (fun _ => R i) (E i)
  | .revise w e, hc, i => by
    rw [Change.run, Change.run]
    refine TreeM.ifMade_mirrors (h.transparent i) fun n hn =>
      .bind ((h.transparent i).apply (h.fails i) hc.2 hc.1 hn) fun paths => ?_
    exact (TreeM.announceAny_mirrors (h.announces i w paths hc.1)).mono (fun _ _ hxy => hxy.1)
      (fun _ _ _ hxy => hxy) fun _ _ hxy => hxy
  | .descend w path, hc, i => by
    rw [Change.run, Change.run]
    refine TreeM.ifMade_mirrors (h.transparent i) fun n hn =>
      .bind ((h.transparent i).descend hc hn path) fun _ => .pure fun _ _ hxy => hxy.1.1
  | .abort e, _, i => .throw e (h.fails i)
  | .batch w body, hc, i => by
    rw [Change.run, Change.run]
    exact TreeM.ifMade_mirrors (h.transparent i) fun n hn =>
      h.batches w hc.1 (runAll_mirrors h body hc.2) i n hn

theorem runAll_mirrors (h : Twins S R E announce announce') : ∀ (cs : List Change),
    Change.AllWithin S cs → ∀ i,
    Mirrors (R i) (Change.runAll announce cs) (Change.runAll announce' cs) (fun _ => R i) (E i)
  | [], _, _ => .pure fun _ _ hxy => hxy
  | c :: rest, hcs, i =>
    .bind (run_mirrors h c hcs.1 i) fun _ => runAll_mirrors h rest hcs.2 i

end

end Twins

/-! ### The log -/

/-- Whether one world keeps the log of what the listeners of another have been told. -/
structure Recorded (note : σ → Call → σ) (u : σ) (i : WrapperRef → Bool)
    (x : World (List Telling)) (y : World σ) : Prop where
  kept : x.forest.Kept
  holding : x.forest.holding = i
  forest : y.forest = x.forest
  user : y.user = (x.user.flatMap Telling.calls).foldl note u

namespace Recorded

variable {note : σ → Call → σ} {u : σ} {i : WrapperRef → Bool} {v : WrapperRef}
variable {x : World (List Telling)} {y : World σ}

theorem eq (h : Recorded note u i x y) :
    y = ⟨x.forest, (x.user.flatMap Telling.calls).foldl note u⟩ := by
  cases y
  cases h.forest
  cases h.user
  rfl

theorem transparent (i : WrapperRef → Bool) :
    Transparent (fun _ => True) (Recorded note u i) where
  store h := by rw [h.forest]
  size h := by rw [h.forest]
  node h v := by rw [h.forest]
  destroyed h v := by rw [h.forest]
  cells {x y s} h _ := ⟨h.kept.store s, h.holding,
    congrArg (fun f : Forest => { f with store := s }) h.forest, h.user⟩
  findsAlike_child := by
    intro x y h v key _ hv
    refine ⟨by rw [h.forest], ⟨h.kept.child hv key, ?_, ?_, h.user⟩, ?_, fun c hc => ⟨trivial, ?_⟩⟩
    · exact (Forest.holding_child hv key).trans h.holding
    · exact congrArg (fun f => (f.child v key).2) h.forest
    · exact x.forest.size_le_child v key
    · exact (h.kept.toOrdered.child hv key).2 c hc

theorem hold (h : Recorded note u i x y) (held : Option (List Path))
    (hv : v.index < x.forest.wrappers.size ∨ held = none) :
    Recorded note u (Function.update i v held.isSome) (x.hold v held) (y.hold v held) :=
  ⟨h.kept.withHeld v held, (Forest.holding_withHeld hv).trans (by rw [h.holding]),
    congrArg (·.withHeld v held) h.forest, h.user⟩

theorem announced (h : Recorded note u i x y) (line : List Station) (paths : List Path) :
    Recorded note u i (TreeM.logged line paths x) (TreeM.announced note line paths y) where
  kept := h.kept.collect line paths
  holding := (Forest.holding_collect _ line paths).trans h.holding
  forest := congrArg (·.collect line paths) h.forest
  user := by
    rw [TreeM.announced, TreeM.logged, h.user, h.forest, List.flatMap_append, List.foldl_append]

theorem announces (i : WrapperRef → Bool) (v : WrapperRef) (paths : List Path) :
    Mirrors (Recorded note u i) (TreeM.logging v paths) (TreeM.emit (TreeM.noting note) v paths)
      (fun _ => Recorded note u i) (Recorded note u i) := by
  intro x y h
  rw [TreeM.emit_noting, h.forest]
  exact ⟨rfl, h.announced _ paths⟩

/-- Listeners that change nothing are told what the log says. -/
theorem twins (note : σ → Call → σ) (u : σ) : Twins (fun _ => True) (Recorded note u)
    (Recorded note u) TreeM.logging (TreeM.emit (TreeM.noting note)) where
  transparent := transparent
  fails _ _ _ h := h
  announces i v paths _ := announces i v paths
  batches v body body' _ hbody i n hn := by
    cases hi : i v with
    | true =>
      refine (TreeM.batchWith_joined (transparent i) (fun _ _ h => h) (fun x y h => ?_)
        (hbody i)).mono (fun _ _ h => h.1) (fun _ _ _ h => h) fun _ _ h => h
      rw [h.forest, h.holding]
      exact ⟨hi, hi⟩
    | false =>
      refine TreeM.batchWith_opened (P := Recorded note u (Function.update i v true))
        (Q := Recorded note u (Function.update i v true)) (transparent i) (fun _ _ h => h)
        (fun x y h => ?_) (hbody _) (fun x y h => ?_) (fun x y h => ?_) (announces i v)
      · refine ⟨by rw [h.1.holding, hi], by rw [h.1.forest, h.1.holding, hi], ?_⟩
        exact h.1.hold (some []) (.inl (Nat.lt_of_lt_of_le hn h.2))
      all_goals
        have hclosed := h.hold (v := v) none (.inr rfl)
        rw [Function.update_idem, Option.isSome_none, ← hi, Function.update_eq_self] at hclosed
      · exact ⟨by rw [h.forest], hclosed⟩
      · exact hclosed

end Recorded

end LiveTree
