import LiveTree.Proofs.Runs.Hosted
import LiveTree.Proofs.Tree.Handing
import LiveTree.Proofs.Tree.References
import LiveTree.Proofs.Tree.Revision

/-! Operations on whole subtrees. They ask for wrappers on the way down and then use them, in which
they fail if a wrapper has been destroyed. As long as everything that the upper wrapper holds is
alive this does not happen, since asking for further wrappers leaves it so: the wrappers met by a
visit are held when it goes on from them, and those that a visit has gathered are still held at its
end. -/

namespace LiveTree

variable {σ α β ε : Type}

/-! ### Faults of operations -/

/-- Whether an operation, if it fails at all, fails for another reason than that a wrapper has been
destroyed. -/
def Calm {σ : Type} (m : EStateM Fault σ α) : Prop := ∀ x e y, m x = .error e y → e.Tame

namespace Calm

variable {σ : Type}

theorem pure (a : α) : Calm (Pure.pure a : EStateM Fault σ α) := fun _ _ _ h => nomatch h

theorem throw {e : Fault} (h : e.Tame) : Calm (MonadExcept.throw e : EStateM Fault σ α) := by
  rintro x _ _ ⟨⟩
  exact h

theorem bind {m : EStateM Fault σ α} {k : α → EStateM Fault σ β} (hm : Calm m)
    (hk : ∀ a, Calm (k a)) : Calm (m >>= k) := by
  intro x e y h
  cases hmx : m x with
  | ok a x₁ =>
    rw [bind_of_ok hmx] at h
    exact hk a x₁ e y h
  | error e' x₁ =>
    rw [bind_of_error hmx] at h
    cases h
    exact hm x _ _ hmx

theorem get : Calm (MonadState.get : EStateM Fault σ σ) := fun _ _ _ h => nomatch h

theorem modifyGet (f : σ → α × σ) : Calm (MonadState.modifyGet f : EStateM Fault σ α) :=
  fun _ _ _ h => nomatch h

theorem mapM {f : α → EStateM Fault σ β} (h : ∀ a, Calm (f a)) (l : List α) : Calm (l.mapM f) := by
  induction l with
  | nil => exact .pure _
  | cons a rest ih =>
    rw [List.mapM_cons]
    exact .bind (h a) fun _ => .bind ih fun _ => .pure _

end Calm

theorem copyTo_calm (n : ℕ) (v : Value) : Calm (copyTo n v) := by
  induction n generalizing v with
  | zero => exact .throw nofun
  | succ n ih =>
    cases v with
    | list r => exact .bind .get fun s => .bind (.mapM ih _) fun _ => .modifyGet _
    | dict r =>
      exact .bind .get fun s => .bind (.mapM (fun _ => .bind (ih _) fun _ => .pure _) _)
        fun _ => .modifyGet _
    | node r =>
      have hentries : ∀ m : Entries NodeRef, Calm (do
          let copies ← m.toList.mapM fun p => do
            return (p.1, (← copyTo n (.node p.2)).asNode?.getD p.2)
          return Entries.ofList copies) := fun m =>
        .bind (.mapM (fun p => .bind (ih _) fun _ => .pure _) _) fun _ => .pure _
      exact .bind .get fun s => .bind (ih _) fun _ => .bind (ih _) fun _ =>
        .bind (hentries _) fun _ => .bind (hentries _) fun _ => .bind (hentries _) fun _ =>
          .bind (.bind .get fun _ => .modifyGet _) fun _ => .pure _
    | _ => exact .pure _

theorem copyValue_calm (v : Value) : Calm (copyValue v) := .bind .get fun _ => copyTo_calm _ v

namespace TreeM

section

variable {notify : Notify σ} (hnotify : ∀ listener paths, Calm (notify listener paths))

include hnotify

theorem tell_calm (paths : List String) (l : List Subscriber) : Calm (tell notify paths l) := by
  induction l with
  | nil => exact .pure _
  | cons x rest ih =>
    rw [tell]
    dsimp only
    split
    exacts [ih, .bind (hnotify _ _) fun _ => ih]

theorem emit_calm (w : WrapperRef) (paths : List Path) : Calm (emit notify w paths) := by
  have hto : ∀ n (w : WrapperRef) paths, Calm (emitTo notify n w paths) := by
    intro n
    induction n with
    | zero => exact fun _ _ => .pure _
    | succ n ih =>
      intro w paths
      have hforest : Calm (forest : TreeM σ Forest) := fun _ _ _ h => nomatch h
      refine .bind hforest fun f => ?_
      dsimp only
      split
      · exact .modifyGet _
      · refine .bind (tell_calm hnotify _ _) fun _ => .bind hforest fun f => ?_
        split
        exacts [ih _ _, .pure _]
  exact hto _ w paths

end

end TreeM

/-! ### Operations that leave things alive -/

open Forest

/-- Whether an operation on a state does not fail because a wrapper has been destroyed and leaves
some of the wrappers that the upper one holds held, with all that it holds alive. -/
def Unharmed (top : WrapperRef) (S : WrapperRef → Prop) (m : TreeM σ α) (x : World σ) : Prop :=
  match m x with
  | .ok _ y => ∀ v, S v → x.forest.Tended top v → y.forest.Tended top v
  | .error e _ => e.Tame

/-- The wrappers that were made up to one. -/
def Upto (u v : WrapperRef) : Prop := v.index ≤ u.index

namespace Unharmed

variable {top u c : WrapperRef} {S : WrapperRef → Prop} {x : World σ} {m : TreeM σ α}
  {k : α → TreeM σ β}

theorem pure (a : α) : Unharmed top S (Pure.pure a) x := fun _ _ h => h

theorem throw {e : Fault} (h : e.Tame) :
    Unharmed top S (MonadExcept.throw e : TreeM σ α) x := h

theorem mono {S' : WrapperRef → Prop} (h : Unharmed top S m x) (hS : ∀ v, S' v → S v) :
    Unharmed top S' m x := by
  unfold Unharmed at h ⊢
  cases hm : m x with
  | ok a y => rw [hm] at h; exact fun v hv => h v (hS v hv)
  | error e y => rw [hm] at h; exact h

/-- What has been done goes on to be so. -/
theorem before {y : World σ} (hxy : ∀ v, S v → x.forest.Tended top v → y.forest.Tended top v)
    (h : Unharmed top S m y) : match m y with
      | .ok _ z => ∀ v, S v → x.forest.Tended top v → z.forest.Tended top v
      | .error e _ => e.Tame := by
  unfold Unharmed at h
  cases hm : m y with
  | ok a z => rw [hm] at h; exact fun v hv hx => h v hv (hxy v hv hx)
  | error e z => rw [hm] at h; exact h

theorem bind (hm : Unharmed top S m x)
    (hk : ∀ a y, m x = .ok a y → (∀ v, S v → x.forest.Tended top v → y.forest.Tended top v) →
      Unharmed top S (k a) y) : Unharmed top S (m >>= k) x := by
  unfold Unharmed at hm ⊢
  cases hmx : m x with
  | ok a y =>
    rw [hmx] at hm
    rw [bind_of_ok hmx]
    exact (hk a y hmx hm).before hm
  | error e y =>
    rw [hmx] at hm
    rw [bind_of_error hmx]
    exact hm

/-- The forest may be looked at. -/
theorem look {k : Forest → TreeM σ β} (h : Unharmed top S (k x.forest) x) :
    Unharmed top S (TreeM.forest >>= k) x := h

theorem checkAlive (h : x.forest.Tended top u) : Unharmed top S (TreeM.checkAlive u) x := by
  rw [Unharmed, TreeM.checkAlive_of_live h.alive]
  exact fun _ _ hv => hv

theorem check {g : Store → Except Fault α} (hg : ∀ s, Tame (g s)) :
    Unharmed top S (TreeM.check g : TreeM σ α) x := by
  refine .look ?_
  have hx := hg x.forest.store
  cases h : g x.forest.store with
  | ok a => exact .pure a
  | error e => exact .throw (hx e h)

theorem eval {m : EvalM α} (hm : m.Tame) : Unharmed top S (TreeM.eval m : TreeM σ α) x := by
  have hfinish := (hm x.forest.store).finish
  unfold Unharmed TreeM.eval EvalM.run
  generalize (m x.forest.store).finish = r at hfinish
  obtain ⟨r, s⟩ := r
  cases r with
  | ok a => exact fun v _ hv => hv.of_wrappers rfl
  | error e => exact hfinish e rfl

theorem build {m : StoreM α} (hm : Calm m) : Unharmed top S (TreeM.build m : TreeM σ α) x := by
  unfold Unharmed TreeM.build EStateM.run
  cases h : m x.forest.store with
  | ok a s => exact fun v _ hv => hv.of_wrappers rfl
  | error e s => exact hm _ e s h

theorem modifyStore (g : Forest → Store) :
    Unharmed top S (TreeM.modifyForest fun f => { f with store := g f } : TreeM σ Unit) x :=
  fun _ _ hv => hv.of_wrappers rfl

/-- A wrapper that is held gives wrappers that are held. -/
theorem child (h : x.forest.Tended top u) (key : String) {k : Option WrapperRef → TreeM σ β}
    (hnone : ∀ y : World σ, y.forest.Tended top u → Unharmed top (Upto u) (k none) y)
    (hsome : ∀ c (y : World σ), u.index < c.index → y.forest.Tended top u →
      y.forest.Tended top c → Unharmed top (Upto u) (k (some c)) y) :
    Unharmed top (Upto u) (TreeM.updateForest (·.child u key) >>= k) x := by
  obtain ⟨hstay, hgiven⟩ := h.child key
  have hrun : (TreeM.updateForest (·.child u key) : TreeM σ (Option WrapperRef)) x =
      .ok (x.forest.child u key).1 ⟨(x.forest.child u key).2, x.user⟩ := rfl
  generalize x.forest.child u key = found at hstay hgiven hrun
  obtain ⟨found, g⟩ := found
  have hu := hstay u (Nat.le_refl _) h
  rw [Unharmed, bind_of_ok hrun]
  cases found with
  | none => exact (hnone ⟨g, x.user⟩ hu).before hstay
  | some c => exact (hsome c ⟨g, x.user⟩ (hgiven c rfl).1 hu (hgiven c rfl).2).before hstay

/-! ### Visits -/

theorem childKeys : Unharmed top S (TreeM.childKeys u : TreeM σ (List String)) x := .look (.pure _)

theorem intoChildren {go : Visitor σ β}
    (hgo : ∀ b c path (y : World σ), y.forest.Tended top c → Unharmed top (Upto c) (go b c path) y)
    (h : x.forest.Tended top u) (path : Path) (keys : List String) (b : β) :
    Unharmed top (Upto u) (TreeM.intoChildren go u path keys b) x := by
  induction keys generalizing b x with
  | nil => exact .pure _
  | cons key rest ih =>
    refine child h key (fun y hy => ih hy b) fun c y hlt hu hc => ?_
    refine .bind ((hgo b c _ y hc).mono fun v hv => Nat.le_trans hv (Nat.le_of_lt hlt))
      fun step z _ hz => ?_
    cases step with
    | yield b => exact ih (hz u (Nat.le_refl _) hu) b
    | done b => exact .pure _

theorem preOrderTo {visit : Visitor σ β}
    (hvisit : ∀ b c path (y : World σ), y.forest.Tended top c →
      Unharmed top (Upto c) (visit b c path) y)
    (n : ℕ) (b : β) (path : Path) (h : x.forest.Tended top u) :
    Unharmed top (Upto u) (TreeM.preOrderTo visit n b u path) x := by
  induction n generalizing b u path x with
  | zero => exact .throw nofun
  | succ n ih =>
    refine .bind (hvisit b u path x h) fun step y _ hy => ?_
    cases step with
    | done b => exact .pure _
    | yield b =>
      refine .bind childKeys fun keys z _ hz => ?_
      have hu := hz u (Nat.le_refl _) (hy u (Nat.le_refl _) h)
      exact intoChildren (fun b c path y hc => ih b path hc) hu path keys b

theorem preOrder {visit : Visitor σ β}
    (hvisit : ∀ b c path (y : World σ), y.forest.Tended top c →
      Unharmed top (Upto c) (visit b c path) y)
    (b : β) (h : x.forest.Tended top u) :
    Unharmed top (Upto u) (TreeM.preOrder u b visit) x :=
  .bind (.look (.pure _)) fun _ _ _ hy =>
    .bind (preOrderTo hvisit _ b [] (hy u (Nat.le_refl _) h)) fun _ _ _ _ => .pure _

/-! ### Reads -/

theorem context (v target : WrapperRef) :
    Unharmed top S (TreeM.context v target : TreeM σ Context) x := by
  refine .look ?_
  split
  exacts [.throw nofun, .pure _]

theorem isTrue (a : Value) : Unharmed top S (TreeM.isTrue a : TreeM σ Bool) x := .look (.pure _)

/-- The empty path leads to the wrapper itself. -/
theorem here {k : Option WrapperRef → TreeM σ β} (h : Unharmed top S (k (some u)) x) :
    Unharmed top S (TreeM.descend u [] >>= k) x := h

/-! ### Resetting -/

theorem applyValue (h : x.forest.Tended top u) (v : Value) (silent : Bool) :
    Unharmed top S (Revision.applyValue u v [] silent : TreeM σ (List Path)) x :=
  .bind (.checkAlive h) fun _ _ _ _ => .here (.bind (.modifyStore _) fun _ _ _ _ => .pure _)

theorem applyReset (hu : S u) (h : x.forest.Tended top u) (silent : Bool) :
    Unharmed top S (Revision.applyReset u silent : TreeM σ (List Path)) x := by
  refine .bind (.checkAlive h) fun _ y _ hy => .bind (.look (.pure _)) fun has z _ hz => ?_
  cases has with
  | false => exact .pure _
  | true =>
    refine .look (.bind (.build (copyValue_calm _)) fun v z' _ hz' => ?_)
    exact applyValue (hz' u hu (hz u hu (hy u hu h))) v silent

theorem applyResetDeep (h : x.forest.Tended top u) (silent : Bool) :
    Unharmed top (Upto u) ((Revision.resetDeep silent).apply u : TreeM σ (List Path)) x := by
  refine .bind (.checkAlive h) fun _ y _ hy => .bind (preOrder (fun changed c path z hc => ?_) []
    (hy u (Nat.le_refl _) h)) fun changed _ _ _ => .pure _
  refine .bind (.look (.pure _)) fun has z' _ hz' => ?_
  have hself := hz' c (Nat.le_refl _) hc
  cases has with
  | false => exact .pure _
  | true => exact .bind (applyReset (Nat.le_refl _) hself true) fun _ _ _ _ => .pure _

/-! ### Evaluated reads -/

section Reads

variable [host : Host] (hhost : host.Tame)

include hhost

theorem readNode (c : Context) (r : NodeRef) :
    Unharmed top S (TreeM.readNode c r : TreeM σ Value) x := by
  refine .look ?_
  dsimp only
  split
  · exact .eval (evaluate_tame hhost c r)
  · split
    exacts [.eval (evaluate_tame hhost c _), .pure _]

theorem getValue (h : x.forest.Tended top u) :
    Unharmed top S (TreeM.getValue u [] : TreeM σ Value) x :=
  .bind (.checkAlive h) fun _ _ _ _ => .here (.bind (context u u) fun c _ _ _ =>
    readNode hhost c c.current)

theorem getConstraint (h : x.forest.Tended top u) (key : String) :
    Unharmed top S (TreeM.getConstraint u key : TreeM σ Bool) x := by
  refine .bind (.checkAlive h) fun _ _ _ _ => .look ?_
  split
  · exact .pure _
  · split
    · exact .pure _
    · exact .bind (context u u) fun c _ _ _ => .bind (.eval (evaluate_tame hhost c _))
        fun _ _ _ _ => isTrue _
    · exact isTrue _

theorem failureMessage (key : String) (rule : NodeRef) :
    Unharmed top S (TreeM.failureMessage u key rule : TreeM σ String) x := by
  refine .look ?_
  dsimp only
  split
  · exact .pure _
  · split
    · exact .pure _
    · exact .bind (context u u) fun c _ _ _ => .bind (.eval (evaluate_tame hhost c _))
        fun v _ _ _ => .check fun s => s.tame_valueText v
    · exact .check fun s => s.tame_valueText _

theorem validateAll (hu : S u) (h : x.forest.Tended top u) (failures : Failures)
    (l : List (String × NodeRef)) :
    Unharmed top S (TreeM.validateAll u failures l : TreeM σ Failures) x := by
  induction l generalizing failures x with
  | nil => exact .pure _
  | cons p rest ih =>
    refine .bind (getConstraint hhost h p.1) fun holds y _ hy => ?_
    cases holds with
    | true => exact ih (hy u hu h) failures
    | false =>
      refine .bind (failureMessage hhost p.1 p.2) fun words z _ hz => ?_
      exact ih (hz u hu (hy u hu h)) _

theorem validate (hu : S u) (h : x.forest.Tended top u) :
    Unharmed top S (TreeM.validate u : TreeM σ Failures) x :=
  .bind (.checkAlive h) fun _ _ _ hy => .look (validateAll hhost hu (hy u hu h) _ _)

theorem validateEach (l : List (WrapperRef × Path)) (h : ∀ p ∈ l, x.forest.Tended top p.1)
    (failures : Entries Failures) :
    Unharmed top (fun _ => True) (TreeM.validateEach failures l : TreeM σ (Entries Failures)) x := by
  induction l generalizing failures x with
  | nil => exact .pure _
  | cons p rest ih =>
    obtain ⟨hp, hrest⟩ := List.forall_mem_cons.mp h
    refine .bind (validate hhost trivial hp) fun found y _ hy => ?_
    have hlater := fun q hq => hy q.1 trivial (hrest q hq)
    split
    exacts [ih hlater failures, ih hlater _]

theorem snapshotChildren {go : WrapperRef → TreeM σ Value}
    (hgo : ∀ c (y : World σ), y.forest.Tended top c → Unharmed top (Upto c) (go c) y)
    (h : x.forest.Tended top u) (keys : List String) (d : Entries Value) :
    Unharmed top (Upto u) (TreeM.snapshotChildren go u d keys) x := by
  induction keys generalizing d x with
  | nil => exact .pure _
  | cons key rest ih =>
    refine child h key (fun y hy => ih hy d) fun c y hlt hu hc => .look ?_
    dsimp only
    split
    · exact .bind ((hgo c y hc).mono fun v hv => Nat.le_trans hv (Nat.le_of_lt hlt))
        fun v z _ hz => ih (hz u (Nat.le_refl _) hu) _
    · exact .bind (getValue hhost hc) fun v z _ hz => ih (hz u (Nat.le_refl _) hu) _

theorem snapshotTo (n : ℕ) (h : x.forest.Tended top u) :
    Unharmed top (Upto u) (TreeM.snapshotTo n u : TreeM σ Value) x := by
  induction n generalizing u x with
  | zero => exact .throw nofun
  | succ n ih =>
    -- the dictionary of what is below
    have hbelow : ∀ (keys : List String) (d : Entries Value) (y : World σ),
        y.forest.Tended top u → Unharmed top (Upto u)
          (TreeM.snapshotChildren (TreeM.snapshotTo n) u d keys >>= TreeM.newDict) y :=
      fun keys d y hy => .bind (snapshotChildren hhost (fun c y hc => ih hc) hy keys d)
        fun d z _ _ v _ hv => hv.of_wrappers rfl
    refine .look ?_
    dsimp only
    split
    · exact getValue hhost h
    · split
      · exact .bind childKeys fun keys y _ hy => hbelow keys _ y (hy u (Nat.le_refl _) h)
      · refine .bind (getValue hhost h) fun v y _ hy => .bind childKeys fun keys z _ hz => ?_
        split
        · exact .pure _
        · exact hbelow keys _ z (hz u (Nat.le_refl _) (hy u (Nat.le_refl _) h))

theorem snapshot (h : x.forest.Tended top u) :
    Unharmed top (Upto u) (TreeM.snapshot u : TreeM σ Value) x :=
  .bind (.checkAlive h) fun _ _ _ hy => .bind (.look (.pure _)) fun _ _ _ hz =>
    snapshotTo hhost _ (hz u (Nat.le_refl _) (hy u (Nat.le_refl _) h))

end Reads

end Unharmed

/-! ### What a visit has gathered -/

/-- Whether wrappers with paths all stand where kept wrappers lead from an upper one. -/
structure Forest.Mapped (f : Forest) (top : WrapperRef) (found : List (WrapperRef × Path)) :
    Prop where
  placed : f.Placed
  made : top.index < f.wrappers.size
  along : ∀ q ∈ found, f.Along top q.2 q.1

/-- Whether a visit gathers wrappers that stand where kept wrappers lead in the end, and leaves the
ways there were. -/
def Surveys (top : WrapperRef) (m : TreeM σ (ForInStep (List (WrapperRef × Path))))
    (x : World σ) : Prop :=
  ∀ step y, m x = .ok step y →
    y.forest.Mapped top step.value ∧ Lasts top x.forest y.forest

namespace Surveys

variable {top u c : WrapperRef} {x : World σ} {path : Path} {found : List (WrapperRef × Path)}

/-- Asking for a child lengthens a way and leaves the others. -/
theorem child (hx : x.forest.Mapped top found) (hu : x.forest.Along top path u) (key : String) :
    (x.forest.child u key).2.Mapped top found ∧ Lasts top x.forest (x.forest.child u key).2 ∧
      ∀ c, (x.forest.child u key).1 = some c →
        (x.forest.child u key).2.Along top (path ++ [key]) c := by
  have hkept := hx.placed.toKept
  have hmade := hu.made hkept.toOrdered hx.made
  have hlasts : Lasts top x.forest (x.forest.child u key).2 :=
    .child hx.placed hx.made (.inr (hu.index_le hkept)) hmade key
  refine ⟨⟨hx.placed.child hmade key, ?_, fun q hq => ?_⟩, hlasts, fun c hc => ?_⟩
  · exact Nat.lt_of_lt_of_le hx.made (x.forest.size_le_child u key)
  · exact hlasts.along q.2 q.1 (hx.along q hq)
  · have hasks := hkept.asks hmade (Prod.ext hc rfl : x.forest.child u key = (some c, _))
    exact (hlasts.along path u hu).step hasks.cache hasks.node

theorem intoChildren {go : Visitor σ (List (WrapperRef × Path))}
    (hgo : ∀ found c path (y : World σ), y.forest.Mapped top found → y.forest.Along top path c →
      Surveys top (go found c path) y)
    (hx : x.forest.Mapped top found) (hu : x.forest.Along top path u) (keys : List String) :
    Surveys top (TreeM.intoChildren go u path keys found) x := by
  induction keys generalizing found x with
  | nil =>
    rintro _ _ ⟨⟩
    exact ⟨hx, .refl top x.forest⟩
  | cons key rest ih =>
    intro step y hrun
    obtain ⟨hmapped, hlasts, hway⟩ := child hx hu key
    have hchild : (TreeM.updateForest (·.child u key) : TreeM σ (Option WrapperRef)) x =
        .ok (x.forest.child u key).1 ⟨(x.forest.child u key).2, x.user⟩ := rfl
    rw [TreeM.intoChildren, bind_of_ok hchild] at hrun
    generalize x.forest.child u key = given at hmapped hlasts hway hrun
    obtain ⟨given, g⟩ := given
    dsimp only at hmapped hlasts hway hrun
    have hu' := hlasts.along path u hu
    cases given with
    | none =>
      obtain ⟨hy, hlasts'⟩ := ih (x := ⟨g, x.user⟩) hmapped hu' step y hrun
      exact ⟨hy, hlasts.trans hlasts'⟩
    | some c =>
      dsimp only at hrun
      have hvisit := hgo found c (path ++ [key]) ⟨g, x.user⟩ hmapped (hway c rfl)
      cases hz : go found c (path ++ [key]) ⟨g, x.user⟩ with
      | error e z =>
        rw [bind_of_error hz] at hrun
        cases hrun
      | ok next z =>
        obtain ⟨hz', hlasts'⟩ := hvisit next z hz
        rw [bind_of_ok hz] at hrun
        cases next with
        | done found =>
          cases hrun
          exact ⟨hz', hlasts.trans hlasts'⟩
        | yield found =>
          obtain ⟨hy, hlasts''⟩ := ih hz' (hlasts'.along path u hu') step y hrun
          exact ⟨hy, (hlasts.trans hlasts').trans hlasts''⟩

/-- A visit that notes every wrapper notes where the kept wrappers lead. -/
theorem preOrderTo {visit : Visitor σ (List (WrapperRef × Path))}
    (hvisit : ∀ found c path x, visit found c path x = .ok (.yield (found ++ [(c, path)])) x)
    (n : ℕ) (hx : x.forest.Mapped top found) (hu : x.forest.Along top path u) :
    Surveys top (TreeM.preOrderTo visit n found u path) x := by
  induction n generalizing found u path x with
  | zero => exact fun _ _ h => nomatch h
  | succ n ih =>
    rw [TreeM.preOrderTo, Surveys]
    rw [bind_of_ok (hvisit found u path x)]
    refine intoChildren (fun found c path y hy hc => ih hy hc) ⟨hx.placed, hx.made, ?_⟩ hu _
    intro q hq
    rcases List.mem_append.mp hq with hq | hq
    · exact hx.along q hq
    · rw [List.mem_singleton.mp hq]
      exact hu

theorem entries (hplaced : x.forest.Placed) (hmade : top.index < x.forest.wrappers.size)
    {found : List (WrapperRef × Path)} {y : World σ} (h : TreeM.entries top x = .ok found y) :
    ∀ q ∈ found, y.forest.Along top q.2 q.1 := by
  have hdepth : (TreeM.visitDepth : TreeM σ ℕ) x =
      .ok (x.forest.store.nodes.size + TreeM.visitMargin) x := rfl
  rw [TreeM.entries, TreeM.select, TreeM.preOrder, bind_of_ok hdepth] at h
  cases hrun : TreeM.preOrderTo (fun found w path => do
      return .yield (if ← (return true : TreeM σ Bool) then found ++ [(w, path)] else found))
      (x.forest.store.nodes.size + TreeM.visitMargin) [] top [] x with
  | error e z =>
    rw [bind_of_error hrun] at h
    cases h
  | ok step z =>
    rw [bind_of_ok hrun] at h
    cases h
    have hstart : x.forest.Mapped top [] := ⟨hplaced, hmade, fun _ hq => nomatch hq⟩
    exact (preOrderTo (fun _ _ _ _ => rfl) _ hstart (.here top) step _ hrun).1.along

end Surveys

theorem Forest.Along.holds {f : Forest} {v c : WrapperRef} {path : Path} (h : f.Along v path c) :
    f.Holds v c := by
  induction h with
  | here => exact .refl
  | child hkept _ _ ih => exact .head ⟨_, hkept⟩ ih

namespace Unharmed

variable {top : WrapperRef} {x : World σ} {m : TreeM σ α}

/-- The wrappers that a validation gathers first are still held when it checks them. -/
theorem validateDeep [host : Host] (hhost : host.Tame) (h : x.forest.Tended top top) :
    Unharmed top (Upto top) (TreeM.validateDeep top : TreeM σ (Entries Failures)) x := by
  refine .bind (.checkAlive h) fun _ y _ hy => ?_
  have hy' := hy top (Nat.le_refl _) h
  have hvisit : Unharmed top (Upto top) (TreeM.entries top) y :=
    preOrder (fun _ _ _ _ _ => .pure _) [] hy'
  refine .bind hvisit fun found z hrun hz => ?_
  have hz' := hz top (Nat.le_refl _) hy'
  have halong := Surveys.entries hy'.placed hy'.made hrun
  refine (validateEach hhost found (fun q hq => ?_) ∅).mono fun _ _ => trivial
  exact { hz' with held := (halong q hq).holds }

theorem tame (h : Unharmed top (Upto top) m x) : ∀ e y, m x = .error e y → e.Tame := by
  intro e y hm
  rw [Unharmed, hm] at h
  exact h

end Unharmed

/-- In every forest that a program can come to, a living wrapper gives for each child of its node a
wrapper that stands on the child and is kept from then on. It is alive with this wrapper as its
parent, or else it was destroyed on request while it was kept in this place. As long as nothing that
is kept at or below the wrapper was destroyed on request, the operations on its whole subtree never
fail because a wrapper has been destroyed, unless a listener or an operator of the host does. -/
theorem Forest.ArisesBy.hands_living [host : Host] (hhost : host.Tame) {notify : Notify σ}
    (hnotify : ∀ listener paths, Calm (notify listener paths)) {requested : WrapperRef → Prop}
    {x : World σ} (h : x.forest.ArisesBy requested) {w : WrapperRef}
    (hw : w.index < x.forest.wrappers.size) (hlive : (x.forest.wrapper w).destroyed = false) :
    (∀ key r, (x.forest.nodeAt w).children.get? key = some r →
      ∃ c g, x.forest.child w key = (some c, g) ∧ (g.wrapper c).node = r ∧
        (g.wrapper w).cache.get? key = some c ∧
        ((g.wrapper c).destroyed = false ∧ (g.wrapper c).parent = some w ∧
            (g.wrapper c).key = some key ∨
          requested c ∧ (x.forest.wrapper c).destroyed = true ∧
            (x.forest.wrapper w).cache.get? key = some c ∧ g = x.forest)) ∧
      ((∀ v key c, x.forest.Holds w v → (x.forest.wrapper v).cache.get? key = some c →
          ¬ requested c) →
        (∀ e y, TreeM.validateDeep w x = .error e y → e.Tame) ∧
        (∀ e y, TreeM.snapshot w x = .error e y → e.Tame) ∧
        ∀ silent e y, TreeM.resetDeep notify w silent x = .error e y → e.Tame) := by
  refine ⟨fun key r hr => h.child_hands hw hr, fun hgone => ?_⟩
  have htended : x.forest.Tended w w := by
    refine ⟨h.arises.placed, hw, fun c hc => ?_, .refl⟩
    rcases Relation.ReflTransGen.cases_tail hc with rfl | ⟨v, hv, key, hkept⟩
    · exact hlive
    · rw [Bool.eq_false_iff]
      exact fun hd => hgone v key c hv hkept (h.requested_of_kept hkept hd)
  refine ⟨(Unharmed.validateDeep hhost htended).tame, (Unharmed.snapshot hhost htended).tame,
    fun silent e y hrun => ?_⟩
  change (Revision.resetDeep silent).perform notify w x = _ at hrun
  rw [Revision.perform_eq] at hrun
  have happly := Unharmed.applyResetDeep htended silent
  cases hx : (Revision.resetDeep silent).apply w x with
  | error e' z =>
    rw [bind_of_error hx] at hrun
    cases hrun
    exact happly.tame _ _ hx
  | ok paths z =>
    rw [bind_of_ok hx, Revision.announce] at hrun
    split at hrun
    · cases hrun
    · exact TreeM.emit_calm hnotify w paths z e y hrun

/-- The form after the wrapper of its city was destroyed on request and made anew. -/
def Forest.renewedForm : Forest :=
  let f := ((wrappedForm.dropCached ⟨0⟩ "address").wrapChild ⟨0⟩ "address" ⟨9⟩).2
  let f := ((f.dropCached ⟨1⟩ "city").wrapChild ⟨1⟩ "city" ⟨8⟩).2
  ((f.destroy ⟨2⟩).dropCached ⟨1⟩ "city" |>.wrapChild ⟨1⟩ "city" ⟨8⟩).2

theorem Forest.renewedForm_arises : renewedForm.ArisesBy fun c => c = ⟨2⟩ := by
  have h : ArisesBy (fun c => c = ⟨2⟩) wrappedForm := (ArisesBy.start .addressForm).wrap ⟨10⟩ none
  have h := h.renewed (w := ⟨0⟩) (by decide) "address" ⟨9⟩
  have h := (h.renewed (w := ⟨1⟩) (by decide) "city" ⟨8⟩).destroyed (w := ⟨2⟩) rfl
  exact h.renewed (w := ⟨1⟩) (by decide) "city" ⟨8⟩

theorem Host.tame_none : Host.none.Tame := fun _ _ _ _ _ => EvalM.habit_tame.fail nofun

/-- What was destroyed on request is kept no more. -/
theorem Forest.renewedForm_keeps {v c : WrapperRef} {key : String}
    (hc : (renewedForm.wrapper v).cache.get? key = some c) : c ≠ ⟨2⟩ := by
  have hmem := Entries.mem_values_of_get? hc
  have hlt : v.index < 4 := lt_size_of_mem_cache hmem
  have hkept : ∀ i < 4, ⟨2⟩ ∉ (renewedForm.wrapper ⟨i⟩).cache.values := by decide
  rintro rfl
  exact hkept v.index hlt hmem

theorem renewedForm_hands_living :
    (∃ c g, Forest.renewedForm.child ⟨0⟩ "address" = (some c, g) ∧ (g.wrapper c).node = ⟨9⟩ ∧
        (g.wrapper c).destroyed = false) ∧
      (∀ e y, @TreeM.validateDeep Unit Host.none ⟨0⟩ ⟨Forest.renewedForm, ()⟩ = .error e y →
        e.Tame) ∧
      (∀ e y, @TreeM.snapshot Unit Host.none ⟨0⟩ ⟨Forest.renewedForm, ()⟩ = .error e y →
        e.Tame) ∧
      ∀ silent e y, TreeM.resetDeep (fun _ _ => pure ()) ⟨0⟩ silent
        ⟨Forest.renewedForm, ()⟩ = .error e y → e.Tame := by
  obtain ⟨hhands, hserves⟩ := @Forest.ArisesBy.hands_living Unit Host.none Host.tame_none
    (fun _ _ => pure ()) (fun _ _ => .pure ()) _ ⟨Forest.renewedForm, ()⟩
    Forest.renewedForm_arises ⟨0⟩ (by decide) (by decide)
  refine ⟨?_, hserves fun v key c _ hc => Forest.renewedForm_keeps hc⟩
  obtain ⟨c, g, hchild, hnode, -, hlive | ⟨hrequested, -, hkept, -⟩⟩ :=
    hhands "address" ⟨9⟩ (by decide)
  · exact ⟨c, g, hchild, hnode, hlive.1⟩
  · exact absurd hrequested (Forest.renewedForm_keeps hkept)

end LiveTree
