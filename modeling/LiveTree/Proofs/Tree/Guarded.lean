import LiveTree.Proofs.Tree.Capture
import LiveTree.Proofs.Tree.Wrappers
import LiveTree.Tree.Show

/-! Forests beside sealed cells. An operation on trees that starts at a wrapper clear of the sealed
cells never comes to one: it goes along what the cells outside hold. So it leaves the cells sealed,
provided that it is not handed one from outside. Other wrappers may stand on sealed cells. -/

namespace LiveTree

open Store

/-- Whether a wrapper stands clear of some cells. -/
def Forest.StandsClear (P : Value → Prop) (f : Forest) (w : WrapperRef) : Prop :=
  ¬ P (.node (f.wrapper w).node)

/-- Whether cells are sealed in the store of a forest and some wrappers stand clear of them. -/
structure Clear (P : Value → Prop) (s₁ : Store) (W : WrapperRef → Prop) (f : Forest) : Prop where
  store : Sealed P s₁ f.store
  wrapper : ∀ w, W w → f.StandsClear P w

/-- Whether the cells that came between two stores are sealed in the store of a forest and no
wrapper stands on one of them. -/
structure Guarded (s s₁ : Store) (f : Forest) : Prop where
  store : Sealed (s.Between s₁) s₁ f.store
  wrapper : ∀ w, ¬ s.Between s₁ (.node (f.wrapper w).node)

variable {P : Value → Prop} {s s₁ : Store} {W W' : WrapperRef → Prop} {f : Forest} {w : WrapperRef}

theorem guarded_iff : Guarded s s₁ f ↔ Clear (s.Between s₁) s₁ (fun _ => True) f :=
  ⟨fun h => ⟨h.store, fun w _ => h.wrapper w⟩, fun h => ⟨h.store, fun w => h.wrapper w trivial⟩⟩

namespace Clear

theorem mono (h : Clear P s₁ W' f) (hW : ∀ w, W w → W' w) : Clear P s₁ W f :=
  ⟨h.store, fun w hw => h.wrapper w (hW w hw)⟩

/-- All wrappers that stand clear may be counted in. -/
theorem all (h : Clear P s₁ W f) : Clear P s₁ (f.StandsClear P) f := ⟨h.store, fun _ hw => hw⟩

theorem modifyWrapper (h : Clear P s₁ W f) {g : Wrapper → Wrapper}
    (hg : (g (f.wrapper w)).node = (f.wrapper w).node) : Clear P s₁ W (f.modifyWrapper w g) where
  store := h.store
  wrapper v hv := by
    have hfv := h.wrapper v hv
    rw [Forest.StandsClear] at hfv ⊢
    rcases f.wrapper_modifyWrapper (g := g) w v with ⟨e, rfl⟩ | e
    · rwa [e, hg]
    · rwa [e]

theorem allocWrapper (h : Clear P s₁ W f) {x : Wrapper} (hx : ¬ P (.node x.node)) :
    Clear P s₁ W (f.allocWrapper x).2 where
  store := h.store
  wrapper v hv := by
    have hfv := h.wrapper v hv
    rw [Forest.StandsClear] at hfv ⊢
    rcases f.wrapper_allocWrapper x v with ⟨e, -⟩ | e <;> rwa [e]

theorem node_parts (h : Clear P s₁ W f) (hw : W w) : ∀ p ∈ (f.nodeAt w).parts, ¬ P p :=
  h.store.apart _ (h.wrapper w hw)

theorem entry (h : Clear P s₁ W f) (hw : W w) (role : Role) {r : NodeRef}
    (hr : r ∈ ((f.nodeAt w).entries role).values) : ¬ P (.node r) :=
  h.node_parts hw _ ((f.nodeAt w).entry_mem_parts role hr)

/-- A change of a wrapper's node that keeps its id, type and kind and holds no sealed cell. -/
theorem modifyNodeAt (h : Clear P s₁ W f) (hw : W w) {g : Node → Node}
    (hakin : (f.nodeAt w).Akin (g (f.nodeAt w))) (hg : ∀ p ∈ (g (f.nodeAt w)).parts, ¬ P p) :
    Clear P s₁ W (f.modifyNodeAt w g) where
  store := h.store.setNode (h.wrapper w hw)
    (fun hhas => (h.store.outlives.akin _ hhas).trans hakin) hg
  wrapper := h.wrapper

theorem withEntries (h : Clear P s₁ W f) (hw : W w) (role : Role) {m : Entries NodeRef}
    (hm : ∀ q ∈ m.values, ¬ P (.node q)) :
    Clear P s₁ W (f.modifyNodeAt w fun n => n.withEntries role m) := by
  refine h.modifyNodeAt hw ?_ fun p hp => ?_
  · cases role <;> exact ⟨rfl, rfl, rfl⟩
  · have hparts := h.node_parts hw
    rcases Node.mem_parts hp with rfl | rfl | ⟨role', q, hq, rfl⟩
    · exact hparts _ (by cases role <;> exact (f.nodeAt w).value_mem_parts)
    · exact hparts _ (by cases role <;> exact (f.nodeAt w).default_mem_parts)
    · by_cases e : role' = role
      · subst e
        rw [Node.entries_withEntries] at hq
        exact hm q hq
      · refine h.entry hw role' ?_
        cases role <;> cases role' <;> first | exact hq | exact absurd rfl e

theorem destroy (h : Clear P s₁ W f) (w : WrapperRef) : Clear P s₁ W (f.destroy w) :=
  Forest.destroyTo_closed (fun _ _ hg => hg.modifyWrapper rfl) _ w h

theorem dropCached (h : Clear P s₁ W f) (w : WrapperRef) (key : String) :
    Clear P s₁ W (f.dropCached w key) := by
  rw [Forest.dropCached]
  split
  · exact h
  · exact (h.modifyWrapper rfl).destroy _

/-- The wrapper of a node that is not sealed stands clear. -/
theorem wrapChild (h : Clear P s₁ W f) {r : NodeRef} (hr : ¬ P (.node r)) (w : WrapperRef)
    (key : String) :
    Clear P s₁ (fun v => W v ∨ v = (f.wrapChild w key r).1) (f.wrapChild w key r).2 := by
  have halloc : Clear P s₁ (fun v => W v ∨ v = ⟨f.wrappers.size⟩)
      (f.allocWrapper (Forest.childWrapper w key r)).2 := by
    refine ⟨h.store, ?_⟩
    rintro v (hv | rfl)
    · exact (h.allocWrapper (x := Forest.childWrapper w key r) hr).wrapper v hv
    · rw [Forest.StandsClear]
      exact (f.wrapper_allocWrapper_self (Forest.childWrapper w key r)).symm ▸ hr
  rw [Forest.wrapChild_eq]
  exact halloc.modifyWrapper (g := fun x => { x with cache := x.cache.insert key _ }) rfl

/-- The wrapper of a child stands clear if the wrapper it is asked from does. -/
theorem child (h : Clear P s₁ W f) (hw : W w) (key : String) :
    Clear P s₁ (fun v => W v ∨ (f.child w key).1 = some v) (f.child w key).2 := by
  rw [Forest.child]
  split
  · exact h.mono fun v hv => hv.resolve_right (by simp)
  · rename_i r hr
    have hr := h.entry hw .children (Entries.mem_values_of_get? hr)
    have hfresh := ((h.dropCached w key).wrapChild hr w key).mono
      (W := fun v => W v ∨ some ((f.dropCached w key).wrapChild w key r).1 = some v)
      fun v hv => hv.imp_right fun e => (Option.some.inj e).symm
    dsimp only
    split
    · split
      · rename_i hc
        refine ⟨h.store, ?_⟩
        rintro v (hv | hv)
        · exact h.wrapper v hv
        · cases hv
          rwa [Forest.StandsClear, hc]
      · exact hfresh
    · exact hfresh

/-- The wrapper that a path leads to stands clear if the wrapper where it starts does. -/
theorem descend (h : Clear P s₁ W f) (hw : W w) (path : Path) :
    Clear P s₁ (fun v => W v ∨ (f.descend w path).1 = some v) (f.descend w path).2 := by
  induction path generalizing W f w with
  | nil => exact h.mono fun v hv => hv.elim id fun e => Option.some.inj e ▸ hw
  | cons key rest ih =>
    have hchild := h.child hw key
    rw [Forest.descend]
    split
    · rename_i e
      rwa [e] at hchild
    · rename_i e
      rw [e] at hchild
      exact (ih hchild (.inr rfl)).mono fun v hv => hv.imp_left .inl

theorem restore (h : Clear P s₁ W f) {saved : Saved} (hsaved : saved.Outside P s₁) :
    Clear P s₁ W (f.modifyStore (·.restore saved)) := ⟨h.store.restore hsaved, h.wrapper⟩

theorem syncCache (h : Clear P s₁ W f) (w : WrapperRef) : Clear P s₁ W (f.syncCache w) :=
  Forest.syncCacheTo_closed (fun _ v key hg => hg.dropCached v key) _ w h

end Clear

/-! ### Operations on trees -/

variable {σ α β : Type} {Q : α → Prop} {notify : Notify σ}

/-- Whether an operation leaves cells sealed and wrappers clear of them, and gives only results of
some sort. -/
abbrev Guards (P : Value → Prop) (s₁ : Store) (W : WrapperRef → Prop) (m : TreeM σ α)
    (Q : α → Prop) : Prop :=
  Keeps (fun x : World σ => Clear P s₁ W x.forest) m Q

/-- Whether an operation leaves cells sealed and wrappers clear of them. -/
abbrev Leaves (P : Value → Prop) (s₁ : Store) (W : WrapperRef → Prop) (m : TreeM σ α) : Prop :=
  Guards P s₁ W m fun _ => True

/-- Whether listeners leave cells sealed, as long as some wrappers, at least, stand clear. -/
def Heeds (P : Value → Prop) (s₁ : Store) (W : WrapperRef → Prop) (notify : Notify σ) : Prop :=
  ∀ W', (∀ w, W w → W' w) → ∀ listener paths, Leaves P s₁ W' (notify listener paths)

theorem Heeds.wider (h : Heeds P s₁ W notify) (hW : ∀ w, W w → W' w) : Heeds P s₁ W' notify :=
  fun W'' hW' => h W'' fun w hw => hW' w (hW w hw)

namespace Keeps

open TreeM

/-- What goes on as things stand may use all wrappers that stand clear then. -/
theorem bind_get {k : World σ → TreeM σ α}
    (hk : ∀ x, Clear P s₁ W x.forest → Guards P s₁ (x.forest.StandsClear P) (k x) Q) :
    Guards P s₁ W (MonadState.get >>= k) Q :=
  .bind_stronger fun x hx => ⟨_, x, x, rfl, hx.all, hk x hx, fun _ hz => hz.mono hx.wrapper⟩

/-- What goes on with a wrapper that has been looked up may use that wrapper as well. -/
theorem bind_lookUp {g : Forest → Option WrapperRef × Forest} {k : Option WrapperRef → TreeM σ α}
    (hg : ∀ f, Clear P s₁ W f → Clear P s₁ (fun v => W v ∨ (g f).1 = some v) (g f).2)
    (hk : ∀ c, Guards P s₁ (fun v => W v ∨ c = some v) (k c) Q) :
    Guards P s₁ W (TreeM.updateForest g >>= k) Q :=
  .bind_stronger fun x hx => ⟨fun z => Clear P s₁ (fun v => W v ∨ (g x.forest).1 = some v) z.forest,
    (g x.forest).1, { x with forest := (g x.forest).2 }, rfl, hg _ hx, hk _,
    fun _ hz => hz.mono fun _ => .inl⟩

theorem forest : Guards P s₁ W (TreeM.forest : TreeM σ Forest) (Clear P s₁ W) :=
  .map .get fun _ hx => hx

theorem modifyForest {g : Forest → Forest} (hg : ∀ f, Clear P s₁ W f → Clear P s₁ W (g f)) :
    Leaves P s₁ W (TreeM.modifyForest g : TreeM σ Unit) :=
  .modifyGet fun x hx => ⟨hg x.forest hx, trivial⟩

theorem updateForest {g : Forest → α × Forest} (hg : ∀ f, Clear P s₁ W f → Clear P s₁ W (g f).2) :
    Leaves P s₁ W (TreeM.updateForest g : TreeM σ α) :=
  .modifyGet fun x hx => ⟨hg x.forest hx, trivial⟩

theorem checkAlive (w : WrapperRef) : Leaves P s₁ W (TreeM.checkAlive w : TreeM σ Unit) := by
  refine .bind .forest fun f _ => ?_
  split
  exacts [.throw _, .pure trivial]

theorem descend (hw : W w) (path : Path) :
    Leaves P s₁ W (TreeM.descend w path : TreeM σ (Option WrapperRef)) :=
  .updateForest fun _ hf => (hf.descend hw path).mono fun _ => .inl

/-- An operation on the store that leaves cells sealed does so in a forest. -/
theorem build {m : StoreM α} (h : Keeps (Sealed P s₁) m Q) :
    Guards P s₁ W (TreeM.build m : TreeM σ α) Q := by
  intro x hx
  have := h x.forest.store hx.store
  simp only [TreeM.build, EStateM.run]
  cases hm : m x.forest.store with
  | ok a t => rw [hm] at this; exact ⟨⟨this.1, hx.wrapper⟩, this.2⟩
  | error e t => rw [hm] at this; exact ⟨this, hx.wrapper⟩

theorem tell (hnotify : Heeds P s₁ W notify) (paths : List String) (l : List Subscriber) :
    Leaves P s₁ W (TreeM.tell notify paths l) := by
  induction l with
  | nil => exact .pure trivial
  | cons x rest ih =>
    rw [TreeM.tell]
    dsimp only
    split
    exacts [ih, .bind (hnotify W (fun _ => id) _ _) fun _ _ => ih]

theorem emitTo (hnotify : Heeds P s₁ W notify) (n : ℕ) (w : WrapperRef) (paths : List Path) :
    Leaves P s₁ W (TreeM.emitTo notify n w paths) := by
  induction n generalizing w paths with
  | zero => exact .pure trivial
  | succ n ih =>
    refine .bind .forest fun f _ => ?_
    dsimp only
    split
    · exact .modifyForest fun _ hf => hf.modifyWrapper rfl
    · refine .bind (tell hnotify _ _) fun _ _ => .bind .forest fun f _ => ?_
      split
      exacts [ih _ _, .pure trivial]

theorem emit (hnotify : Heeds P s₁ W notify) (w : WrapperRef) (paths : List Path) :
    Leaves P s₁ W (TreeM.emit notify w paths) := emitTo hnotify _ _ _

theorem emitUnless (hnotify : Heeds P s₁ W notify) (silent : Bool) (w : WrapperRef) (path : Path) :
    Leaves P s₁ W (TreeM.emitUnless notify silent w path) := by
  rw [TreeM.emitUnless]
  cases silent
  exacts [emit hnotify _ _, .pure trivial]

theorem emitChange (hnotify : Heeds P s₁ W notify) (w : WrapperRef) (path : Path) :
    Leaves P s₁ W (TreeM.emitChange notify w path) :=
  .bind (checkAlive w) fun _ _ => emit hnotify _ _

theorem batch (hnotify : Heeds P s₁ W notify) (w : WrapperRef) {body : TreeM σ α}
    (hbody : Leaves P s₁ W body) : Leaves P s₁ W (TreeM.batch notify w body) := by
  have hset : ∀ held, Leaves P s₁ W (setBatched w held : TreeM σ Unit) := fun held =>
    .modifyForest fun _ hf => hf.modifyWrapper rfl
  refine .bind (checkAlive w) fun _ _ => .bind .forest fun f _ => ?_
  split
  · exact hbody
  · refine .bind (hset _) fun _ _ => .bind (.tryCatch hbody fun e => ?_) fun result _ => ?_
    · exact .bind (hset _) fun _ _ => .throw e
    · refine .bind .forest fun f _ => .bind (hset _) fun _ _ => ?_
      split
      exacts [.pure trivial, .bind (emit hnotify _ _) fun _ _ => .pure trivial]

/-! #### Changes -/

theorem setValue (hnotify : Heeds P s₁ W notify) (hw : W w) {v : Value} (hv : ¬ P v) (path : Path)
    (silent : Bool) : Leaves P s₁ W (TreeM.setValue notify w v path silent) := by
  refine .bind (checkAlive w) fun _ _ => ?_
  refine bind_lookUp (fun _ hf => hf.descend hw path) fun target => ?_
  cases target with
  | none => exact .pure trivial
  | some target =>
    have htarget : W target ∨ some target = some target := .inr rfl
    refine .bind (.modifyForest fun f hf => hf.modifyNodeAt htarget ⟨rfl, rfl, rfl⟩ fun p hp => ?_)
      fun _ _ => emitUnless (hnotify.wider fun _ => .inl) _ _ _
    rcases List.mem_cons.mp hp with rfl | hp
    · exact hv
    · exact hf.node_parts htarget p (List.mem_cons_of_mem _ hp)

theorem reset (hnotify : Heeds P s₁ W notify) (hw : W w) (silent : Bool) :
    Leaves P s₁ W (TreeM.reset notify w silent) := by
  refine .bind (checkAlive w) fun _ _ => .bind (P := fun _ => True) ?_ fun has _ => ?_
  · exact .bind .forest fun _ _ => .pure trivial
  · cases has
    · exact .pure trivial
    · refine .bind .forest fun f hf => .bind (.build (keeps_copyValue ?_)) fun v hv =>
        setValue hnotify hw hv [] silent
      exact hf.node_parts hw _ (f.nodeAt w).default_mem_parts

theorem setEntry (hnotify : Heeds P s₁ W notify) (role : Role) (hw : W w) (key : String)
    {r : NodeRef} (hr : ¬ P (.node r)) (silent : Bool) :
    Leaves P s₁ W (TreeM.setEntry notify role w key r silent) := by
  refine .bind (checkAlive w) fun _ _ => .bind (.modifyForest fun f hf => ?_)
    fun _ _ => emitUnless hnotify _ _ _
  refine hf.withEntries hw role fun q hq => ?_
  rcases Entries.mem_values_insert hq with rfl | hq
  exacts [hr, hf.entry hw role hq]

theorem removeEntry (hnotify : Heeds P s₁ W notify) (role : Role) (hw : W w) (key : String)
    (silent : Bool) : Leaves P s₁ W (TreeM.removeEntry notify role w key silent) := by
  refine .bind (checkAlive w) fun _ _ => .bind .forest fun f _ => ?_
  split
  · refine .bind (.modifyForest fun f hf => ?_) fun _ _ =>
      .bind (emitUnless hnotify _ _ _) fun _ _ => .pure trivial
    exact hf.withEntries hw role fun q hq => hf.entry hw role (Entries.mem_values_erase hq)
  · exact .pure trivial

theorem addChild (hw : W w) (key : String) {r : NodeRef} (hr : ¬ P (.node r)) :
    Leaves P s₁ W (TreeM.addChild w key r : TreeM σ WrapperRef) := by
  refine .bind (checkAlive w) fun _ _ => .updateForest fun f hf => ?_
  have hchanged := hf.withEntries hw .children (m := (f.nodeAt w).children.insert key r)
    fun q hq => by
      rcases Entries.mem_values_insert hq with rfl | hq
      exacts [hr, hf.entry hw .children hq]
  exact ((hchanged.dropCached w key).wrapChild hr w key).mono fun _ => .inl

theorem removeChild (hw : W w) (key : String) :
    Leaves P s₁ W (TreeM.removeChild w key : TreeM σ Bool) := by
  refine .bind (checkAlive w) fun _ _ => .bind .forest fun f _ => ?_
  split
  · refine .bind (.modifyForest fun f hf => Clear.dropCached ?_ w key) fun _ _ => .pure trivial
    exact hf.withEntries hw .children fun q hq =>
      hf.entry hw .children (Entries.mem_values_erase hq)
  · exact .pure trivial

theorem intoChildren {go : Visitor σ β}
    (hgo : ∀ W', (∀ w, W w → W' w) → ∀ b c path, W' c → Leaves P s₁ W' (go b c path)) (hw : W w)
    (path : Path) (keys : List String) (b : β) :
    Leaves P s₁ W (TreeM.intoChildren go w path keys b) := by
  induction keys generalizing W b with
  | nil => exact .pure trivial
  | cons key rest ih =>
    refine bind_lookUp (fun f hf => hf.child hw key) fun c => ?_
    have hgo' : ∀ W', (∀ v, W v ∨ c = some v → W' v) → ∀ b c path, W' c →
        Leaves P s₁ W' (go b c path) := fun W' hW' => hgo W' fun v hv => hW' v (.inl hv)
    cases c with
    | none => exact ih hgo' (.inl hw) b
    | some c =>
      refine .bind (hgo' _ (fun _ => id) b c _ (.inr rfl)) fun step _ => ?_
      cases step
      exacts [.pure trivial, ih hgo' (.inl hw) _]

theorem preOrderTo {visit : Visitor σ β}
    (hvisit : ∀ W', (∀ w, W w → W' w) → ∀ b c path, W' c → Leaves P s₁ W' (visit b c path)) (n : ℕ)
    (b : β) (hw : W w) (path : Path) : Leaves P s₁ W (TreeM.preOrderTo visit n b w path) := by
  induction n generalizing W b w path with
  | zero => exact .throw _
  | succ n ih =>
    refine .bind (hvisit W (fun _ => id) b w path hw) fun step _ => ?_
    cases step with
    | done b => exact .pure trivial
    | yield b =>
      refine .bind (P := fun _ => True) (.bind .forest fun _ _ => .pure trivial) fun keys _ => ?_
      refine intoChildren (fun W' hW' b c path hc => ih ?_ b hc path) hw path keys b
      exact fun W'' hW'' => hvisit W'' fun w hw => hW'' w (hW' w hw)

theorem preOrder {visit : Visitor σ β}
    (hvisit : ∀ W', (∀ w, W w → W' w) → ∀ b c path, W' c → Leaves P s₁ W' (visit b c path))
    (hw : W w) (b : β) : Leaves P s₁ W (TreeM.preOrder w b visit) :=
  .bind (P := fun _ => True) (.bind .forest fun _ _ => .pure trivial) fun _ _ =>
    .bind (preOrderTo hvisit _ b hw []) fun _ _ => .pure trivial

theorem resetDeep (hnotify : Heeds P s₁ W notify) (hw : W w) (silent : Bool) :
    Leaves P s₁ W (TreeM.resetDeep notify w silent) := by
  refine .bind (checkAlive w) fun _ _ => ?_
  refine .bind (preOrder (fun W' hW' changed c path hc => ?_) hw []) fun l _ => ?_
  · refine .bind (P := fun _ => True) (.bind .forest fun _ _ => .pure trivial) fun has _ => ?_
    cases has
    exacts [.pure trivial, .bind (reset (hnotify.wider hW') hc true) fun _ _ => .pure trivial]
  · split
    exacts [.pure trivial, emit hnotify _ _]

theorem transaction (hw : W w) {body : TreeM σ α} (hbody : Leaves P s₁ W body) :
    Leaves P s₁ W (TreeM.transaction w body) := by
  refine .bind (checkAlive w) fun _ _ => .bind .forest fun f hf => ?_
  refine .bind (build (keeps_capture (hf.wrapper w hw))) fun saved hsaved => ?_
  refine .tryCatch hbody fun e => .bind (.modifyForest fun f hf => ?_) fun _ _ => .throw e
  exact (hf.restore hsaved).syncCache w

theorem subscribe (w : WrapperRef) (listener : Nat) (filter : Option PathFilter) :
    Leaves P s₁ W (TreeM.subscribe w listener filter : TreeM σ Nat) := by
  refine .bind (checkAlive w) fun _ _ => .updateForest fun f hf => ?_
  dsimp only
  exact hf.modifyWrapper rfl

theorem clone (hw : W w) : Leaves P s₁ W (TreeM.clone w : TreeM σ WrapperRef) := by
  refine .bind .forest fun f hf => ?_
  refine .bind (build (keeps_copyNode (hf.wrapper w hw))) fun r hr => ?_
  exact .bind .forest fun _ _ => .updateForest fun _ hf => hf.allocWrapper hr

end Keeps

end LiveTree
