import LiveTree.Proofs.Tree.Habits
import LiveTree.Proofs.Tree.Navigation
import LiveTree.Proofs.Tree.Operation

/-! Programs among the forests that they can come to. Every operation leads from a forest that a
program can come to, to another one, as long as it is asked of a wrapper that has been made. So do
reads, and whole programs, also when they fail, and whatever listeners do when they are told of
changes. A program that destroys no wrapper on request can come to fewer forests. -/

namespace LiveTree

variable {σ α β : Type} {b : Bool} {n : ℕ} {v w : WrapperRef}

namespace Forest

/-- Whether a program can come to a forest, with so many wrappers at least. -/
structure Grown (b : Bool) (n : ℕ) (f : Forest) : Prop where
  arises : f.Arises b
  made : n ≤ f.wrappers.size

namespace Grown

variable {f : Forest} (h : f.Grown b n)

include h

theorem store (s : Store) : Grown b n { f with store := s } := ⟨h.arises.store s, h.made⟩

theorem child (hw : w.index < n) (key : String) : (f.child w key).2.Grown b n :=
  ⟨h.arises.child (Nat.lt_of_lt_of_le hw h.made) key, Nat.le_trans h.made (f.size_le_child w key)⟩

theorem tuned (w : WrapperRef) {g : Wrapper → Wrapper}
    (hg : (f.wrapper w).SamePlace (g (f.wrapper w))) : (f.modifyWrapper w g).Grown b n :=
  ⟨h.arises.tuned w hg, by rw [size_modifyWrapper]; exact h.made⟩

theorem dropped (w : WrapperRef) (key : String) : (f.dropCached w key).Grown b n :=
  ⟨h.arises.dropped w key, by rw [size_dropCached]; exact h.made⟩

theorem renewed (hw : w.index < n) (key : String) (r : NodeRef) :
    ((f.dropCached w key).wrapChild w key r).2.Grown b n := by
  refine ⟨h.arises.renewed (Nat.lt_of_lt_of_le hw h.made) key r, ?_⟩
  rw [size_wrapChild, size_dropCached]
  exact Nat.le_succ_of_le h.made

theorem wrap (r : NodeRef) (g : Option Registry) : (f.allocWrapper (.ofNode r g)).2.Grown b n :=
  ⟨h.arises.wrap r g, by rw [size_allocWrapper]; exact Nat.le_succ_of_le h.made⟩

theorem destroyed (hb : b = true) (w : WrapperRef) : (f.destroy w).Grown b n :=
  ⟨h.arises.destroyed hb w, by rw [(fades_destroy f w).size]; exact h.made⟩

theorem syncCache (w : WrapperRef) : (f.syncCache w).Grown b n :=
  ⟨h.arises.syncCache w, by rw [size_syncCache]; exact h.made⟩

end Grown

end Forest

/-- Whether an operation leads from each forest that a program can come to, with so many wrappers at
least, to another one. -/
abbrev Arrives (b : Bool) (n : ℕ) (m : TreeM σ α) : Prop :=
  Keeps (fun x : World σ => x.forest.Grown b n) m fun _ => True

namespace Arrives

variable {m : TreeM σ α} {k : α → TreeM σ β}

theorem bind (hm : Arrives b n m) (hk : ∀ a, Arrives b n (k a)) : Arrives b n (m >>= k) :=
  Keeps.bind hm fun a _ => hk a

theorem discard (hm : Arrives b n m) : Arrives b n (Functor.discard m) :=
  hm.bind fun _ => Keeps.pure trivial

theorem modifyForest {g : Forest → Forest} (hg : ∀ f, f.Grown b n → (g f).Grown b n) :
    Arrives b n (TreeM.modifyForest g : TreeM σ Unit) :=
  Keeps.modifyGet fun x hx => ⟨hg x.forest hx, trivial⟩

theorem updateForest {g : Forest → α × Forest} (hg : ∀ f, f.Grown b n → (g f).2.Grown b n) :
    Arrives b n (TreeM.updateForest g : TreeM σ α) :=
  Keeps.modifyGet fun x hx => ⟨hg x.forest hx, trivial⟩

/-- The store may change in any way. -/
theorem build (m : StoreM α) : Arrives b n (TreeM.build m : TreeM σ α) := by
  intro x hx
  simp only [TreeM.build]
  cases m.run x.forest.store with
  | ok a s => exact ⟨hx.store s, trivial⟩
  | error e s => exact hx.store s

theorem eval (m : EvalM α) : Arrives b n (TreeM.eval m : TreeM σ α) := by
  intro x hx
  simp only [TreeM.eval]
  cases m.run x.forest.store with
  | mk r s =>
    cases r with
    | ok a => exact ⟨hx.store s, trivial⟩
    | error e => exact hx.store s

/-- What is found has been made by the time that things go on with it. -/
theorem lookUp {op : Forest → Option WrapperRef × Forest} {k : Option WrapperRef → TreeM σ β}
    (hop : ∀ f, f.Grown b n → (op f).2.Grown b n ∧
      ∀ c, (op f).1 = some c → c.index < (op f).2.wrappers.size)
    (hnone : Arrives b n (k none))
    (hsome : ∀ c m, n ≤ m → c.index < m → Arrives b m (k (some c))) :
    Arrives b n (TreeM.updateForest op >>= k) := by
  intro x hx
  obtain ⟨hgrown, hmade⟩ := hop x.forest hx
  have hfind : TreeM.updateForest op x = .ok (op x.forest).1 ⟨(op x.forest).2, x.user⟩ := rfl
  rw [bind_of_ok hfind]
  cases hc : (op x.forest).1 with
  | none => exact hnone _ hgrown
  | some c =>
    have hk := hsome c _ hgrown.made (hmade c hc) ⟨(op x.forest).2, x.user⟩
      ⟨hgrown.arises, Nat.le_refl _⟩
    split at hk
    · exact ⟨⟨hk.1.arises, Nat.le_trans hgrown.made hk.1.made⟩, trivial⟩
    · exact ⟨hk.arises, Nat.le_trans hgrown.made hk.made⟩

/-- Visits, announcements, changes of values and reads lead to such forests, whatever the operators
of the host do to the store. -/
theorem habit : TreeM.Habit fun {α} n (m : TreeM σ α) => Arrives b n m where
  pure _ := Keeps.pure trivial
  throw e := Keeps.throw e
  bind := bind
  tryCatch hm hh := Keeps.tryCatch hm hh
  forest := Keeps.map Keeps.get fun _ _ => trivial
  child hw key _ hnone hsome := lookUp (fun _ hf => ⟨hf.child hw key,
    (hf.arises.kept.toOrdered.child (Nat.lt_of_lt_of_le hw hf.made) key).2⟩) hnone hsome
  descend {_ _ w} hw path _ hnone hsome := by
    refine lookUp (fun f hf => ?_) hnone hsome
    have hmade := Nat.lt_of_lt_of_le hw hf.made
    refine ⟨⟨hf.arises.descend hmade path, ?_⟩, fun c hc => ?_⟩
    · exact Nat.le_trans hf.made (f.size_le_descend w path)
    · exact (hf.arises.kept.descend hmade (Prod.ext hc rfl : f.descend w path = (some c, _))).2.2.2
  tune w op h := updateForest fun f hf => by
    obtain ⟨u, hu, e⟩ := h f
    rw [e]
    exact hf.tuned w hu
  putValue _ _ := modifyForest fun _ hf => hf.store _
  copyValue _ := build _
  newDict _ := updateForest fun _ hf => hf.store _

/-! ### Changes -/

theorem perform {notify : Notify σ} (hnotify : ∀ listener paths, Arrives b n (notify listener paths))
    (hv : v.index < n) (e : Revision) : Arrives b n (e.perform notify v) := by
  refine habit.perform hnotify e ?_
  cases e with
  | setValue a path silent => exact habit.applyValue hv a path silent
  | reset silent => exact habit.applyReset hv silent
  | resetDeep silent => exact habit.applyResetDeep hv silent
  | setEntry role key r silent =>
    exact (habit.checkAlive v).bind fun _ => (modifyForest fun _ hf => hf.store _).bind fun _ =>
      habit.pure _
  | removeEntry role key silent =>
    refine (habit.checkAlive v).bind fun _ => habit.forest.bind fun f => ?_
    split
    · exact (modifyForest fun _ hf => hf.store _).bind fun _ => habit.pure _
    · exact habit.pure _
  | emitChange path => exact habit.applyEmitChange v path

theorem addChild (hv : v.index < n) (key : String) (r : NodeRef) :
    Arrives b n (TreeM.addChild v key r : TreeM σ WrapperRef) :=
  (habit.checkAlive v).bind fun _ => updateForest fun _ hf => (hf.store _).renewed hv key r

theorem removeChild (v : WrapperRef) (key : String) :
    Arrives b n (TreeM.removeChild v key : TreeM σ Bool) := by
  refine (habit.checkAlive v).bind fun _ => habit.forest.bind fun f => ?_
  split
  · exact (modifyForest fun _ hf => (hf.store _).dropped v key).bind fun _ => habit.pure _
  · exact habit.pure _

theorem transaction (v : WrapperRef) {body : TreeM σ α} (hbody : Arrives b n body) :
    Arrives b n (TreeM.transaction v body) := by
  refine (habit.checkAlive v).bind fun _ => habit.forest.bind fun f => (build _).bind fun saved => ?_
  refine habit.tryCatch hbody fun e => (modifyForest fun f hf => ?_).bind fun _ => habit.throw e
  exact (hf.store _).syncCache v

theorem wrap (r : NodeRef) (g : Option Registry) :
    Arrives b n (TreeM.wrap r g : TreeM σ WrapperRef) := updateForest fun _ hf => hf.wrap r g

theorem clone (v : WrapperRef) : Arrives b n (TreeM.clone v : TreeM σ WrapperRef) :=
  habit.forest.bind fun _ => (build _).bind fun r => habit.forest.bind fun _ => wrap r _

/-- So do reads. -/
theorem read [Host] (hv : v.index < n) (r : Read) : Arrives b n (r.run v : TreeM σ Answer) :=
  habit.read (fun _ _ => eval _) (clone v) hv r

/-- A program may go on as things stand, with as many wrappers as there are then. -/
theorem look {k : World σ → TreeM σ α} (h : ∀ x : World σ, n ≤ x.forest.wrappers.size →
    Arrives b x.forest.wrappers.size (k x)) : Arrives b n (MonadState.get >>= k) := by
  intro x hx
  have hk := h x hx.made x ⟨hx.arises, Nat.le_refl _⟩
  have hget : (MonadState.get : TreeM σ (World σ)) x = .ok x x := rfl
  rw [bind_of_ok hget]
  split at hk
  · exact ⟨⟨hk.1.arises, Nat.le_trans hx.made hk.1.made⟩, trivial⟩
  · exact ⟨hk.arises, Nat.le_trans hx.made hk.made⟩

end Arrives

/-! ### Programs -/

namespace Operation

/-- The wrapper that an operation is asked of, if it is asked of one. -/
def subject : Operation σ → Option WrapperRef
  | setValue w .. | reset w _ | resetDeep w _ | setEntry _ w .. | removeEntry _ w ..
  | addChild w .. | removeChild w _ | descend w _ | destroy w | clone w | subscribe w ..
  | unsubscribe w _ | emitChange w _ | batch w _ | transaction w _ => some w
  | _ => none

mutual

/-- Whether an operation can be asked when so many wrappers have been made: of one of them, and for
the destruction of a wrapper only if that is allowed. -/
def Asks (b : Bool) (n : ℕ) : Operation σ → Prop
  | destroy _ => b = true
  | look k => ∀ x : World σ, n ≤ x.forest.wrappers.size → AsksAll b x.forest.wrappers.size (k x)
  | attempt body handler => AsksAll b n body ∧ ∀ e, AsksAll b n (handler e)
  | batch _ body => AsksAll b n body
  | transaction _ body => AsksAll b n body
  | op => ∀ w, op.subject = some w → w.index < n

/-- Whether operations can be asked one after another. -/
def AsksAll (b : Bool) (n : ℕ) : List (Operation σ) → Prop
  | [] => True
  | op :: rest => Asks b n op ∧ AsksAll b n rest

end

variable {notify : Notify σ}

mutual

/-- An operation leads from a forest that a program can come to, to another one. -/
theorem perform_arrives (hnotify : ∀ n listener paths, Arrives b n (notify listener paths)) :
    ∀ (n : ℕ) (op : Operation σ), op.Asks b n → Arrives b n (op.perform notify)
  | n, setValue w v path silent, h =>
    Arrives.perform (hnotify n) (h w rfl) (.setValue v path silent)
  | n, reset w silent, h => Arrives.perform (hnotify n) (h w rfl) (.reset silent)
  | n, resetDeep w silent, h => Arrives.perform (hnotify n) (h w rfl) (.resetDeep silent)
  | n, setEntry role w key r silent, h =>
    Arrives.perform (hnotify n) (h w rfl) (.setEntry role key r silent)
  | n, removeEntry role w key silent, h =>
    Arrives.perform (hnotify n) (h w rfl) (.removeEntry role key silent)
  | n, addChild w key r, h => (Arrives.addChild (h w rfl) key r).discard
  | n, removeChild w key, _ => (Arrives.removeChild w key).discard
  | n, descend w path, h => Arrives.habit.descend (h w rfl) path (Arrives.habit.pure _) fun _ _ _ _ => Arrives.habit.pure _
  | n, wrap r registry, _ => (Arrives.wrap r registry).discard
  | n, destroy w, h => .modifyForest fun _ hf => hf.destroyed h w
  | n, clone w, _ => (Arrives.clone w).discard
  | n, subscribe w listener filter, _ =>
    Arrives.discard (Arrives.habit.subscribe w listener filter)
  | n, unsubscribe w number, _ => Arrives.habit.unsubscribe w number
  | n, emitChange w path, h => Arrives.perform (hnotify n) (h w rfl) (.emitChange path)
  | n, makeNode id type c, _ => (Arrives.build _).discard
  | n, makeList l, _ => (Arrives.build _).discard
  | n, makeTuple l, _ => (Arrives.build _).discard
  | n, makeDict d, _ => (Arrives.build _).discard
  | n, writeList r l, _ => by
    rw [perform]
    exact .modifyForest fun _ hf => hf.store _
  | n, writeDict r d, _ => by
    rw [perform]
    exact .modifyForest fun _ hf => hf.store _
  | n, note g, _ => Keeps.modifyGet fun _ hx => ⟨hx, trivial⟩
  | n, abort e, _ => Keeps.throw e
  | n, look k, h => .look fun x hx => performAll_arrives hnotify _ (k x) (h x hx)
  | n, attempt body handler, h =>
    Arrives.habit.tryCatch (performAll_arrives hnotify n body h.1) fun e =>
      performAll_arrives hnotify n _ (h.2 e)
  | n, batch w body, h => Arrives.habit.batch (hnotify n) w (performAll_arrives hnotify n body h)
  | n, transaction w body, h => .transaction w (performAll_arrives hnotify n body h)

/-- So does a whole program. -/
theorem performAll_arrives (hnotify : ∀ n listener paths, Arrives b n (notify listener paths)) :
    ∀ (n : ℕ) (ops : List (Operation σ)), AsksAll b n ops → Arrives b n (performAll notify ops)
  | _, [], _ => Keeps.pure trivial
  | n, op :: rest, h =>
    (perform_arrives hnotify n op h.1).bind fun _ => performAll_arrives hnotify n rest h.2

end

/-- Listeners that are programs themselves lead to such forests as well. -/
theorem reacting_arrives {react : World σ → ℕ → List String → List (Operation σ)}
    (h : ∀ x listener paths, AsksAll b x.forest.wrappers.size (react x listener paths))
    (limit n listener : ℕ) (paths : List String) :
    Arrives b n (reacting react limit listener paths) := by
  induction limit generalizing n listener paths with
  | zero => exact Keeps.throw _
  | succ limit ih =>
    exact .look fun x _ => performAll_arrives ih _ _ (h x listener paths)

end Operation

end LiveTree
