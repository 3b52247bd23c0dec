import LiveTree.Proofs.Runs.Development
import LiveTree.Proofs.Tree.Evolving
import LiveTree.Proofs.Tree.Programs

/-! Programs let forests evolve. Every operation leads from a forest in order to one that it has
evolved into, whether it fails or not, if it is asked of wrappers that have been made and is handed
nodes that are there. So do reads, with operators of the host that make no node hold another, and
whole programs, and whatever listeners do when they are told of changes. What of this adds, removes
or destroys something is found in the program. -/

namespace LiveTree

open Store

variable {σ α β : Type} {edits : NodeRef → String → Prop} {b : Bool} {n : ℕ} {w : WrapperRef}

/-- Whether the forest of one world evolves into that of another. -/
def World.Evolves (edits : NodeRef → String → Prop) (b : Bool) (x y : World σ) : Prop :=
  x.forest.Evolves edits b y.forest

instance : IsPreorder (World σ) (World.Evolves edits b) where
  refl x := .refl x.forest
  trans _ _ _ := Forest.Evolves.trans

/-- Whether a forest that a program can come to is in order, comes later than another one, and has so
many wrappers at least. -/
structure Forest.Sequel (b : Bool) (f : Forest) (n : ℕ) (g : Forest) : Prop where
  arises : g.Arises b
  orderly : g.Orderly
  ages : Ages f g
  made : n ≤ g.wrappers.size

namespace Forest.Sequel

variable {f g h : Forest}

theorem evolves (hg : f.Sequel b n g) (hgh : g.Evolves edits b h) : f.Sequel b n h where
  arises := hgh.arises hg.arises
  orderly := (hgh.keepsOrder hg.arises hg.orderly).1
  ages := hg.ages.trans (hgh.ages hg.arises)
  made := Nat.le_trans hg.made (hgh.ages hg.arises).size_le

theorem mono {m : ℕ} (hg : f.Sequel b n g) (hm : m ≤ g.wrappers.size) : f.Sequel b m g :=
  { hg with made := hm }

theorem lt_size (hg : f.Sequel b n g) (hw : w.index < f.wrappers.size) :
    w.index < g.wrappers.size := Nat.lt_of_lt_of_le hw hg.ages.size_le

end Forest.Sequel

/-- What adds to the store and succeeds has added to the store and done nothing else. -/
theorem TreeM.build_eq_ok {m : StoreM α} {x y : World σ} {a : α} (h : TreeM.build m x = .ok a y) :
    m x.forest.store = .ok a y.forest.store ∧
      y = { x with forest := { x.forest with store := y.forest.store } } := by
  simp only [TreeM.build, EStateM.run] at h
  cases hrun : m x.forest.store with
  | ok a s =>
    rw [hrun] at h
    cases h
    exact ⟨rfl, rfl⟩
  | error e s =>
    rw [hrun] at h
    cases h

/-- Asking for a wrapper by a path is asking for children. -/
theorem Forest.Evolves.descend {f : Forest} (hf : f.Arises b) (hw : w.index < f.wrappers.size)
    (path : Path) : f.Evolves edits b (f.descend w path).2 := by
  induction path generalizing f w with
  | nil => exact .refl _
  | cons key rest ih =>
    have hchild : f.Evolves edits b (f.child w key).2 := .asked (.refl _) hw key
    have hmade := (hf.kept.toOrdered.child hw key).2
    rw [Forest.descend]
    cases hc : f.child w key with
    | mk c g =>
      rw [hc] at hchild hmade
      cases c with
      | none => exact hchild
      | some c => exact hchild.trans (ih (hchild.arises hf) (hmade c rfl))

/-- Whether an operation lets every forest in order evolve that is later than some forest, with so
many wrappers at least. -/
def Conducts (edits : NodeRef → String → Prop) (b : Bool) (f : Forest) (n : ℕ) (m : TreeM σ α) :
    Prop := ∀ x : World σ, f.Sequel b n x.forest → Moves (World.Evolves edits b) m x

namespace Conducts

variable {f : Forest} {m : TreeM σ α} {k : α → TreeM σ β}

theorem pure (a : α) : Conducts edits b f n (Pure.pure a : TreeM σ α) := fun _ _ => .pure a

theorem throw (e : Fault) : Conducts edits b f n (MonadExcept.throw e : TreeM σ α) := fun _ _ =>
  .throw e

theorem bind (hm : Conducts edits b f n m) (hk : ∀ a, Conducts edits b f n (k a)) :
    Conducts edits b f n (m >>= k) := fun x hx =>
  (hm x hx).bind fun a y _ hy => hk a y (hx.evolves hy)

theorem discard (hm : Conducts edits b f n m) : Conducts edits b f n (Functor.discard m) :=
  hm.bind fun _ => pure _

theorem tryCatch {handler : Fault → TreeM σ α} (hm : Conducts edits b f n m)
    (hh : ∀ e, Conducts edits b f n (handler e)) :
    Conducts edits b f n (MonadExcept.tryCatch m handler) := fun x hx =>
  (hm x hx).tryCatch fun e y _ hy => hh e y (hx.evolves hy)

/-- What comes after a look at the forest may go by it. -/
theorem look_at {k : Forest → TreeM σ α} (hk : ∀ x : World σ, f.Sequel b n x.forest →
    Moves (World.Evolves edits b) (k x.forest) x) : Conducts edits b f n (TreeM.forest >>= k) :=
  hk

theorem modifyForest {u : Forest → Forest} (hu : ∀ g, f.Sequel b n g → g.Evolves edits b (u g)) :
    Conducts edits b f n (TreeM.modifyForest u : TreeM σ Unit) := fun x hx =>
  .modifyGet (hu x.forest hx)

theorem updateForest {op : Forest → α × Forest}
    (hop : ∀ g, f.Sequel b n g → g.Evolves edits b (op g).2) :
    Conducts edits b f n (TreeM.updateForest op : TreeM σ α) := fun x hx =>
  .modifyGet (hop x.forest hx)

/-- What develops the store lets the forest evolve. -/
theorem moves_build {m : StoreM α} {x : World σ} (hm : Moves Store.Develops m x.forest.store) :
    Moves (World.Evolves edits b) (TreeM.build m) x := by
  show Forest.Evolves _ _ _ (finalState (TreeM.build m x)).forest
  simp only [TreeM.build, EStateM.run]
  cases hrun : m x.forest.store with
  | ok a s => exact .cells (.refl _) (hm.ok hrun)
  | error e s => exact .cells (.refl _) (hm.error hrun)

theorem build {m : StoreM α} {known : List NodeRef} {found : α → List NodeRef}
    (hknown : ∀ r ∈ known, f.store.Has (.node r)) (hm : Developing known m found) :
    Conducts edits b f n (TreeM.build m : TreeM σ α) := fun _ hx =>
  moves_build (hm _ ⟨hx.orderly.store, fun r hr => hx.ages.has r (hknown r hr)⟩).1

theorem eval {m : EvalM α} (hm : m.Develops) :
    Conducts edits b f n (TreeM.eval m : TreeM σ α) := by
  intro x hx
  have hdevelops : x.forest.store.Develops (m.run x.forest.store).2 := (hm _ hx.orderly.store).finish
  show Forest.Evolves _ _ _ (finalState (TreeM.eval m x)).forest
  simp only [TreeM.eval]
  split <;> rename_i hrun <;> rw [hrun] at hdevelops <;> exact .cells (.refl _) hdevelops

/-- What is found has been made by the time that things go on with it. -/
theorem lookUp {op : Forest → Option WrapperRef × Forest} {k : Option WrapperRef → TreeM σ β}
    (hop : ∀ g, f.Sequel b n g → g.Evolves edits b (op g).2 ∧
      ∀ c, (op g).1 = some c → c.index < (op g).2.wrappers.size)
    (hnone : Conducts edits b f n (k none))
    (hsome : ∀ c m, n ≤ m → c.index < m → Conducts edits b f m (k (some c))) :
    Conducts edits b f n (TreeM.updateForest op >>= k) := by
  intro x hx
  obtain ⟨hevolves, hmade⟩ := hop x.forest hx
  have hsequel := hx.evolves hevolves
  refine Moves.bind (.modifyGet hevolves) ?_
  rintro a y ⟨⟩ -
  cases hc : (op x.forest).1 with
  | none => exact hnone _ hsequel
  | some c =>
    exact hsome c _ hsequel.made (hmade c hc) _ (hsequel.mono (Nat.le_refl _))

/-- Visits, announcements, changes of values and reads let forests evolve. -/
theorem habit : TreeM.Habit fun {α} n (m : TreeM σ α) => Conducts edits b f n m where
  pure := pure
  throw := throw
  bind := bind
  tryCatch := tryCatch
  forest _ _ := .get_bind (.pure _)
  child hw key _ hnone hsome := lookUp (fun g hg =>
    have hw := Nat.lt_of_lt_of_le hw hg.made
    ⟨.asked (.refl g) hw key, (hg.arises.kept.toOrdered.child hw key).2⟩) hnone hsome
  descend {_ _ w} hw path _ hnone hsome := lookUp (fun g hg =>
    have hw := Nat.lt_of_lt_of_le hw hg.made
    ⟨.descend hg.arises hw path, fun _ hc =>
      (hg.arises.kept.descend hw (Prod.ext hc rfl : g.descend w path = (some _, _))).2.2.2⟩)
    hnone hsome
  tune w op h := updateForest fun g _ => by
    obtain ⟨u, hu, e⟩ := h g
    rw [e]
    exact .tuned (.refl g) w hu
  putValue w v := modifyForest fun g hg => .cells (.refl g) <|
    .of_modifyNode _ ⟨rfl, rfl, rfl⟩ rfl <| List.forall_mem_append.mpr
      ⟨hg.orderly.store.entries _ .metadata, hg.orderly.store.entries _ .constraints⟩
  copyValue v := build (List.forall_mem_nil _) (.copyValue v)
  newDict d := updateForest fun g _ => .cells (.refl g) (.of_nodes rfl)

/-! ### Changes -/

/-- Metadata and constraints may get entries that are there. -/
theorem putEntries (w : WrapperRef) {role : Role} (hrole : role ≠ .children)
    (u : Entries NodeRef → Entries NodeRef)
    (hu : ∀ g m, f.Sequel b n g → (∀ q ∈ m.values, g.store.Has (.node q)) →
      ∀ q ∈ (u m).values, g.store.Has (.node q)) :
    Conducts edits b f n (TreeM.modifyForest
      (·.modifyNodeAt w fun x => x.withEntries role (u (x.entries role))) : TreeM σ Unit) := by
  refine modifyForest fun g hg => .cells (.refl g) (.of_modifyNode _ ?_ ?_ ?_)
  · cases role <;> exact ⟨rfl, rfl, rfl⟩
  · exact Node.children_withEntries _ hrole _
  · have hold := hg.orderly.store.entries (g.wrapper w).node
    refine List.forall_mem_append.mpr ?_
    cases role with
    | children => exact (hrole rfl).elim
    | metadata => exact ⟨hu g _ hg (hold .metadata), hold .constraints⟩
    | constraints => exact ⟨hold .metadata, hu g _ hg (hold .constraints)⟩

theorem applySetEntry (w : WrapperRef) {role : Role} (hrole : role ≠ .children) (key : String)
    {r : NodeRef} (hr : f.store.Has (.node r)) (silent : Bool) :
    Conducts edits b f n ((Revision.setEntry role key r silent).apply w : TreeM σ (List Path)) := by
  refine bind (habit.checkAlive w) fun _ =>
    bind (putEntries w hrole (·.insert key r) fun g m hg hm q hq => ?_) fun _ => pure _
  rcases Entries.mem_values_insert hq with rfl | hq
  exacts [hg.ages.has _ hr, hm q hq]

theorem applyRemoveEntry (w : WrapperRef) {role : Role} (hrole : role ≠ .children) (key : String)
    (silent : Bool) :
    Conducts edits b f n ((Revision.removeEntry role key silent).apply w : TreeM σ (List Path)) := by
  refine bind (habit.checkAlive w) fun _ => bind habit.forest fun g => ?_
  split
  · exact bind (putEntries w hrole (·.erase key) fun g m _ hm q hq =>
      hm q (Entries.mem_values_erase hq)) fun _ => pure _
  · exact pure _

theorem addChild (hw : w.index < f.wrappers.size) {key : String}
    (he : edits (f.wrapper w).node key) {r : NodeRef} (hr : f.store.Has (.node r)) :
    Conducts edits b f n (TreeM.addChild w key r : TreeM σ WrapperRef) := by
  refine bind (habit.checkAlive w) fun _ => updateForest fun g hg => ?_
  exact .added (.refl g) (hg.lt_size hw) (by rwa [hg.ages.node w hw]) (hg.ages.has r hr)

theorem removeChild (hw : w.index < f.wrappers.size) {key : String}
    (he : edits (f.wrapper w).node key) :
    Conducts edits b f n (TreeM.removeChild w key : TreeM σ Bool) := by
  refine bind (habit.checkAlive w) fun _ => bind habit.forest fun _ => ?_
  split
  · refine bind (modifyForest fun g hg => ?_) fun _ => pure _
    exact .removed (.refl g) w (by rwa [hg.ages.node w hw])
  · exact pure _

/-- A transaction is one step of the forest if its body fails. -/
theorem transaction (w : WrapperRef) {body : TreeM σ α} (hbody : Conducts edits b f n body) :
    Conducts edits b f n (TreeM.transaction w body) := by
  refine bind (habit.checkAlive w) fun _ => look_at fun x hx => ?_
  have hsaving : Moves Store.Develops (capture (x.forest.wrapper w).node) x.forest.store :=
    (Developing.capture _ _ ⟨hx.orderly.store, List.forall_mem_nil _⟩).1
  have hopening : Moves (World.Evolves edits b) (TreeM.build (capture (x.forest.wrapper w).node)) x :=
    moves_build hsaving
  show Forest.Evolves _ _ _ (finalState ((TreeM.build _ >>= _) x)).forest
  cases hopen : TreeM.build (capture (x.forest.wrapper w).node) x with
  | error e y =>
    rw [bind_of_error hopen]
    exact hopening.error hopen
  | ok saved y =>
    have hy : x.forest.Evolves edits b y.forest := hopening.ok hopen
    have hbody := hbody y (hx.evolves hy)
    rw [bind_of_ok hopen]
    cases hrun : body y with
    | ok a z =>
      rw [tryCatch_of_ok hrun]
      exact hy.trans (hbody.ok hrun)
    | error e z =>
      -- saving, what the body has done and putting back are one step
      obtain ⟨hsave, hsame⟩ := TreeM.build_eq_ok hopen
      have hz : y.forest.Evolves edits b z.forest := hbody.error hrun
      rw [hsame] at hz
      rw [tryCatch_of_error hrun]
      exact .rolledBack (.refl _) w hsave hz

theorem wrap {r : NodeRef} (hr : f.store.Has (.node r)) (registry : Option Registry) :
    Conducts edits b f n (TreeM.wrap r registry : TreeM σ WrapperRef) :=
  updateForest fun g hg => .wrapped (.refl g) (hg.ages.has r hr) registry

theorem clone (w : WrapperRef) : Conducts edits b f n (TreeM.clone w : TreeM σ WrapperRef) := by
  refine look_at fun x hx => ?_
  obtain ⟨hcopying, hfound⟩ := Developing.copyNode (List.mem_singleton.mpr rfl) x.forest.store
    ⟨hx.orderly.store, List.forall_mem_singleton.mpr (hx.orderly.has_node w)⟩
  refine (moves_build hcopying).bind fun r y hy _ => ?_
  have hr : y.forest.store.Has (.node r) :=
    (hfound r _ (TreeM.build_eq_ok hy).1).has r (List.mem_singleton.mpr rfl)
  exact .wrapped (.refl y.forest) hr _

/-! ### Reads and programs -/

/-- Reads let forests evolve, if the operators of the host develop the store at most. -/
theorem read [host : Host] (hhost : host.Develops) (hw : w.index < n) (r : Read) :
    Conducts edits b f n (r.run w : TreeM σ Answer) :=
  habit.read (fun c r => eval (evaluate_develops hhost c r)) (clone w) hw r

/-- A program may go on as things stand. -/
theorem look {k : World σ → TreeM σ α} (h : ∀ x : World σ, f.Sequel b n x.forest →
    Conducts edits b x.forest x.forest.wrappers.size (k x)) :
    Conducts edits b f n (MonadState.get >>= k) := fun x hx =>
  .get_bind (h x hx x ⟨hx.arises, hx.orderly, .refl _, Nat.le_refl _⟩)

end Conducts

namespace Operation

section

variable (edits : NodeRef → String → Prop) (b : Bool)

mutual

/-- Whether an operation can be asked when things are as in some forest or later: of wrappers that
have been made, with nodes that are there, for children to be added and removed where that is
allowed, and for the destruction of a wrapper if that is. -/
def Fits : Forest → Operation σ → Prop
  | _, destroy _ => b = true
  | f, setEntry role _ _ r _ => role ≠ .children ∧ f.store.Has (.node r)
  | _, removeEntry role _ _ _ => role ≠ .children
  | f, addChild w key r =>
    w.index < f.wrappers.size ∧ edits (f.wrapper w).node key ∧ f.store.Has (.node r)
  | f, removeChild w key => w.index < f.wrappers.size ∧ edits (f.wrapper w).node key
  | f, wrap r _ => f.store.Has (.node r)
  | f, makeNode _ type c => f.store.Has (.node type) ∧
    ∀ r ∈ c.metadata.values ++ c.constraints.values ++ c.children.values, f.store.Has (.node r)
  | f, look k => ∀ x : World σ, f.Sequel b f.wrappers.size x.forest → FitsAll x.forest (k x)
  | f, attempt body handler => FitsAll f body ∧ ∀ e, FitsAll f (handler e)
  | f, batch _ body => FitsAll f body
  | f, transaction _ body => FitsAll f body
  | f, op => ∀ w, op.subject = some w → w.index < f.wrappers.size

/-- Whether operations can be asked one after another. -/
def FitsAll : Forest → List (Operation σ) → Prop
  | _, [] => True
  | f, op :: rest => Fits f op ∧ FitsAll f rest

end

end

variable {notify : Notify σ}

open Conducts

mutual

/-- An operation lets forests evolve. -/
theorem perform_evolves
    (hnotify : ∀ f listener paths, Conducts edits b f f.wrappers.size (notify listener paths)) :
    ∀ (f : Forest) (op : Operation σ), op.Fits edits b f →
      Conducts edits b f f.wrappers.size (op.perform notify)
  | f, setValue w v path silent, h =>
    habit.perform (hnotify f) (.setValue v path silent) (habit.applyValue (h w rfl) v path silent)
  | f, reset w silent, h =>
    habit.perform (hnotify f) (.reset silent) (habit.applyReset (h w rfl) silent)
  | f, resetDeep w silent, h =>
    habit.perform (hnotify f) (.resetDeep silent) (habit.applyResetDeep (h w rfl) silent)
  | f, setEntry role w key r silent, h =>
    habit.perform (hnotify f) (.setEntry role key r silent) (applySetEntry w h.1 key h.2 silent)
  | f, removeEntry role w key silent, h =>
    habit.perform (hnotify f) (.removeEntry role key silent) (applyRemoveEntry w h key silent)
  | f, addChild w key r, h => (Conducts.addChild h.1 h.2.1 h.2.2).discard
  | f, removeChild w key, h => (Conducts.removeChild h.1 h.2).discard
  | f, descend w path, h => habit.descend (h w rfl) path (.pure _) fun _ _ _ _ => .pure _
  | f, wrap r registry, h => (Conducts.wrap h registry).discard
  | f, destroy w, h => .modifyForest fun g _ => .destroyed (.refl g) h w
  | f, clone w, _ => (Conducts.clone w).discard
  | f, subscribe w listener filter, _ => discard (habit.subscribe w listener filter)
  | f, unsubscribe w number, _ => habit.unsubscribe w number
  | f, emitChange w path, _ =>
    habit.perform (hnotify f) (.emitChange path) (habit.applyEmitChange w path)
  | f, makeNode id type c, h => discard <| .build (List.forall_mem_cons.mpr h)
    (.node List.mem_cons_self id c (List.subset_cons_self type _))
  | f, makeList l, _ => discard <| .build (List.forall_mem_nil _)
    (.update (N := fun _ => []) (fun _ => rfl) fun _ => List.nil_subset _)
  | f, makeTuple l, _ => discard <| .build (List.forall_mem_nil _)
    (.update (N := fun _ => []) (fun _ => rfl) fun _ => List.nil_subset _)
  | f, makeDict d, _ => discard <| .build (List.forall_mem_nil _)
    (.update (N := fun _ => []) (fun _ => rfl) fun _ => List.nil_subset _)
  | f, writeList r l, _ => by
    rw [perform]
    exact .modifyForest fun g _ => .cells (.refl g) (.of_nodes rfl)
  | f, writeDict r d, _ => by
    rw [perform]
    exact .modifyForest fun g _ => .cells (.refl g) (.of_nodes rfl)
  | f, note g, _ => fun x _ => .modifyGet (.refl x.forest)
  | f, abort e, _ => .throw e
  | f, look k, h => .look fun x hx => performAll_evolves hnotify _ (k x) (h x hx)
  | f, attempt body handler, h => (performAll_evolves hnotify f body h.1).tryCatch fun e =>
      performAll_evolves hnotify f _ (h.2 e)
  | f, batch w body, h => habit.batch (hnotify f) w (performAll_evolves hnotify f body h)
  | f, transaction w body, h => .transaction w (performAll_evolves hnotify f body h)

/-- So does a whole program. -/
theorem performAll_evolves
    (hnotify : ∀ f listener paths, Conducts edits b f f.wrappers.size (notify listener paths)) :
    ∀ (f : Forest) (ops : List (Operation σ)), FitsAll edits b f ops →
      Conducts edits b f f.wrappers.size (performAll notify ops)
  | _, [], _ => .pure _
  | f, op :: rest, h =>
    (perform_evolves hnotify f op h.1).bind fun _ => performAll_evolves hnotify f rest h.2

end

/-- Listeners that are programs themselves let forests evolve as well. -/
theorem reacting_evolves {react : World σ → ℕ → List String → List (Operation σ)}
    (h : ∀ x listener paths, x.forest.Arises b → x.forest.Orderly →
      FitsAll edits b x.forest (react x listener paths))
    (limit : ℕ) (f : Forest) (listener : ℕ) (paths : List String) :
    Conducts edits b f f.wrappers.size (reacting react limit listener paths) := by
  induction limit generalizing f listener paths with
  | zero => exact .throw _
  | succ limit ih =>
    refine .look fun x hx => ?_
    exact performAll_evolves ih _ _ (h x listener paths hx.arises hx.orderly)

end Operation

end LiveTree
