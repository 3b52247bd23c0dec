import LiveTree.Proofs.Store.Later
import LiveTree.Proofs.Tree.ByPath
import LiveTree.Proofs.Tree.Habits
import LiveTree.Proofs.Tree.Rollback

/-! What operations on trees do not come to: the argument order that evaluation remembers of a
node. Whatever happens to the node's children, the order stays as it is. -/

namespace LiveTree

open Store

/-- Whether a node is there and just this argument order is remembered of it, if any. -/
structure Store.Recalls (s : Store) (r : NodeRef) (kept : Option (List String)) : Prop where
  made : r.index < s.argOrders.size
  order : s.argOrder r = kept

variable {σ α β : Type} {s t : Store} {r : NodeRef} {kept : Option (List String)}

namespace Store.Recalls

theorem of_argOrders_eq (h : s.Recalls r kept) (e : t.argOrders = s.argOrders) :
    t.Recalls r kept := by
  refine ⟨by rw [e]; exact h.made, ?_⟩
  rw [argOrder, e]
  exact h.order

theorem allocNode (h : s.Recalls r kept) (n : Node) : (s.allocNode n).2.Recalls r kept := by
  refine ⟨?_, (s.argOrder_allocNode n r).trans h.order⟩
  simp only [Store.allocNode, Array.size_push]
  exact Nat.lt_succ_of_lt h.made

theorem additive (r : NodeRef) (kept : Option (List String)) : Additive (Recalls · r kept) where
  list _ _ h := h.of_argOrders_eq rfl
  dict _ _ h := h.of_argOrders_eq rfl
  node _ n h := h.allocNode n

theorem restore (h : s.Recalls r kept) (saved : Saved) : (s.restore saved).Recalls r kept := by
  induction saved generalizing s with
  | nil => exact h
  | cons p rest ih => exact ih (h.of_argOrders_eq (t := s.setNode p.1 p.2) rfl)

theorem capture (q : NodeRef) :
    Keeps (Recalls · r kept) (LiveTree.capture q) fun _ => True := by
  have hcopy := (additive r kept).keeps_copyValue
  refine .bind .get fun t _ => .mono (.mapM (Q := fun _ => True) fun q _ => ?_) fun _ _ => trivial
  exact .bind .get fun t _ => .bind (hcopy _) fun _ _ => .bind (hcopy _) fun _ _ => .pure trivial

end Store.Recalls

/-- Whether an operation leaves the argument order of a node alone. -/
abbrev Overlooks (r : NodeRef) (kept : Option (List String)) (m : TreeM σ α) : Prop :=
  Keeps (fun x : World σ => x.forest.store.Recalls r kept) m fun _ => True

namespace Overlooks

variable {m : TreeM σ α} {k : α → TreeM σ β}

theorem bind (hm : Overlooks r kept m) (hk : ∀ a, Overlooks r kept (k a)) : Overlooks r kept (m >>= k) :=
  Keeps.bind hm fun a _ => hk a

theorem discard (hm : Overlooks r kept m) : Overlooks r kept (Functor.discard m) :=
  hm.bind fun _ => Keeps.pure trivial

theorem modifyForest {g : Forest → Forest}
    (hg : ∀ f, (g f).store.argOrders = f.store.argOrders) :
    Overlooks r kept (TreeM.modifyForest g : TreeM σ Unit) :=
  Keeps.modifyGet fun x hx => ⟨hx.of_argOrders_eq (hg x.forest), trivial⟩

theorem changeNode (w : WrapperRef) (g : Node → Node) :
    Overlooks r kept (TreeM.modifyForest (·.modifyNodeAt w g) : TreeM σ Unit) :=
  modifyForest fun _ => rfl

theorem updateForest {g : Forest → α × Forest}
    (hg : ∀ f, (g f).2.store.argOrders = f.store.argOrders) :
    Overlooks r kept (TreeM.updateForest g : TreeM σ α) :=
  Keeps.modifyGet fun x hx => ⟨hx.of_argOrders_eq (hg x.forest), trivial⟩

theorem build {m : StoreM α} {P : α → Prop} (h : Keeps (Store.Recalls · r kept) m P) :
    Overlooks r kept (TreeM.build m : TreeM σ α) := by
  intro x hx
  have hm := h x.forest.store hx
  simp only [TreeM.build, EStateM.run]
  cases e : m x.forest.store with
  | ok a t => rw [e] at hm; exact ⟨hm.1, trivial⟩
  | error e' t => rw [e] at hm; exact hm

/-- Adding a cell other than a node. -/
theorem buildCell {g : Store → α × Store} (hg : ∀ s, (g s).2.argOrders = s.argOrders) :
    Overlooks r kept (TreeM.build (.update g) : TreeM σ α) :=
  build (P := fun _ => True) (.modifyGet fun x hx => ⟨hx.of_argOrders_eq (hg x), trivial⟩)

/-- What is found does not matter. -/
theorem lookUp {op : Forest → Option WrapperRef × Forest} {k : Option WrapperRef → TreeM σ β}
    (hop : ∀ f, (op f).2.store.argOrders = f.store.argOrders) (hnone : Overlooks r kept (k none))
    (hsome : ∀ c, Overlooks r kept (k (some c))) : Overlooks r kept (TreeM.updateForest op >>= k) := by
  refine (updateForest hop).bind fun c => ?_
  cases c with
  | none => exact hnone
  | some c => exact hsome c

/-- It does not matter how many wrappers there are. -/
theorem habit : TreeM.Habit fun {α} _ (m : TreeM σ α) => Overlooks r kept m where
  pure _ := Keeps.pure trivial
  throw e := Keeps.throw e
  bind := bind
  tryCatch hm hh := Keeps.tryCatch hm hh
  forest := Keeps.map Keeps.get fun _ _ => trivial
  child {_ n w} _ key _ hnone hsome := lookUp (fun f => congrArg Store.argOrders (f.store_child w key))
    hnone fun c => hsome c (n + c.index + 1) (by omega) (by omega)
  descend {_ n w} _ path _ hnone hsome := lookUp
    (fun f => congrArg Store.argOrders (f.store_descend w path)) hnone fun c =>
      hsome c (n + c.index + 1) (by omega) (by omega)
  tune w op h := updateForest fun f => by
    obtain ⟨u, -, e⟩ := h f
    rw [e]
    rfl
  putValue w _ := changeNode w _
  copyValue v := build ((Recalls.additive r kept).keeps_copyValue v)
  newDict _ := updateForest fun _ => rfl

theorem forest : Overlooks r kept (TreeM.forest : TreeM σ Forest) := habit.forest (n := 0)

theorem checkAlive (w : WrapperRef) : Overlooks r kept (TreeM.checkAlive w : TreeM σ Unit) :=
  habit.checkAlive (n := 0) w

/-! ### Changes -/

theorem perform {notify : Notify σ}
    (hnotify : ∀ listener paths, Overlooks r kept (notify listener paths)) (w : WrapperRef)
    (e : Revision) : Overlooks r kept (e.perform notify w) := by
  have hw : w.index < w.index + 1 := Nat.lt_succ_self _
  refine habit.perform (n := 0) hnotify e ?_
  cases e with
  | setValue v path silent => exact habit.applyValue hw v path silent
  | reset silent => exact habit.applyReset hw silent
  | resetDeep silent => exact habit.applyResetDeep hw silent
  | setEntry role key q silent =>
    exact (checkAlive w).bind fun _ => (changeNode w _).bind fun _ => Keeps.pure trivial
  | removeEntry role key silent =>
    refine (checkAlive w).bind fun _ => forest.bind fun f => ?_
    split
    exacts [(changeNode w _).bind fun _ => Keeps.pure trivial, Keeps.pure trivial]
  | emitChange path => exact habit.applyEmitChange (n := 0) w path

theorem addChild (w : WrapperRef) (key : String) (q : NodeRef) :
    Overlooks r kept (TreeM.addChild w key q : TreeM σ WrapperRef) :=
  (checkAlive w).bind fun _ => updateForest fun _ =>
    Eq.trans (congrArg Store.argOrders (Forest.store_dropCached _ w key)) rfl

theorem removeChild (w : WrapperRef) (key : String) :
    Overlooks r kept (TreeM.removeChild w key : TreeM σ Bool) := by
  refine (checkAlive w).bind fun _ => forest.bind fun f => ?_
  split
  · refine (modifyForest fun f => ?_).bind fun _ => Keeps.pure trivial
    exact Eq.trans (congrArg Store.argOrders (Forest.store_dropCached _ w key)) rfl
  · exact Keeps.pure trivial

theorem transaction (w : WrapperRef) {body : TreeM σ α} (hbody : Overlooks r kept body) :
    Overlooks r kept (TreeM.transaction w body) := by
  refine (checkAlive w).bind fun _ => forest.bind fun f => ?_
  refine (build (Recalls.capture _)).bind fun saved => Keeps.tryCatch hbody fun e => ?_
  refine Keeps.bind (P := fun _ => True) (.modifyGet fun x hx => ⟨?_, trivial⟩) fun _ _ => .throw e
  exact (hx.restore saved).of_argOrders_eq (congrArg Store.argOrders (Forest.store_syncCache _ w))

theorem clone (w : WrapperRef) : Overlooks r kept (TreeM.clone w : TreeM σ WrapperRef) :=
  forest.bind fun _ => (build ((Recalls.additive r kept).keeps_copyNode _)).bind fun _ =>
    forest.bind fun _ => updateForest fun _ => rfl

end Overlooks

namespace Operation

variable {notify : Notify σ}

mutual

/-- No operation comes to the argument order of a node. -/
theorem perform_overlooks (hnotify : ∀ listener paths, Overlooks r kept (notify listener paths)) :
    ∀ op : Operation σ, Overlooks r kept (op.perform notify)
  | setValue w v path silent => Overlooks.perform hnotify w (.setValue v path silent)
  | reset w silent => Overlooks.perform hnotify w (.reset silent)
  | resetDeep w silent => Overlooks.perform hnotify w (.resetDeep silent)
  | setEntry role w key q silent => Overlooks.perform hnotify w (.setEntry role key q silent)
  | removeEntry role w key silent => Overlooks.perform hnotify w (.removeEntry role key silent)
  | addChild w key q => (Overlooks.addChild w key q).discard
  | removeChild w key => (Overlooks.removeChild w key).discard
  | descend w path => (Overlooks.updateForest fun f =>
    congrArg Store.argOrders (f.store_descend w path)).discard
  | wrap q registry => (Overlooks.updateForest fun _ => rfl).discard
  | destroy w => .modifyForest fun f =>
    congrArg Store.argOrders (f.store_destroyTo f.wrappers.size w)
  | clone w => (Overlooks.clone w).discard
  | subscribe w listener filter =>
    Overlooks.discard (Overlooks.habit.subscribe (n := 0) w listener filter)
  | unsubscribe w number => .modifyForest fun _ => rfl
  | emitChange w path => Overlooks.perform hnotify w (.emitChange path)
  | makeNode id type c =>
    (Overlooks.build (P := fun _ => True) (.modifyGet fun _ hx => ⟨hx.allocNode _, trivial⟩)).discard
  | makeList l => (Overlooks.buildCell fun _ => rfl).discard
  | makeTuple l => (Overlooks.buildCell fun _ => rfl).discard
  | makeDict d => (Overlooks.buildCell fun _ => rfl).discard
  | writeList q l => by
    rw [perform]
    exact .modifyForest fun _ => rfl
  | writeDict q d => by
    rw [perform]
    exact .modifyForest fun _ => rfl
  | note g => Keeps.modifyGet fun _ hx => ⟨hx, trivial⟩
  | abort e => Keeps.throw e
  | look k => Keeps.bind Keeps.get fun x _ => performAll_overlooks hnotify (k x)
  | attempt body handler =>
    Keeps.tryCatch (performAll_overlooks hnotify body) fun e => performAll_overlooks hnotify _
  | batch w body => Overlooks.habit.batch (n := 0) hnotify w (performAll_overlooks hnotify body)
  | transaction w body => .transaction w (performAll_overlooks hnotify body)

/-- Nor does a whole program. -/
theorem performAll_overlooks (hnotify : ∀ listener paths, Overlooks r kept (notify listener paths)) :
    ∀ ops : List (Operation σ), Overlooks r kept (performAll notify ops)
  | [] => Keeps.pure trivial
  | op :: rest => (perform_overlooks hnotify op).bind fun _ => performAll_overlooks hnotify rest

end

/-- Nor do listeners that are programs themselves. -/
theorem reacting_overlooks (react : World σ → ℕ → List String → List (Operation σ))
    (limit listener : ℕ) (paths : List String) :
    Overlooks r kept (reacting react limit listener paths) := by
  induction limit generalizing listener paths with
  | zero => exact Keeps.throw _
  | succ limit ih => exact Keeps.bind Keeps.get fun x _ => performAll_overlooks ih _

end Operation

end LiveTree
