import LiveTree.Proofs.Moving
import LiveTree.Proofs.Tree.Chronicle
import LiveTree.Proofs.Tree.Filtering
import LiveTree.Script.Run
import Mathlib.Data.Set.Card

/-! The subscriptions of a wrapper over time. All there is to know of them can be read off the
chronicle of what has happened to them, whatever else has gone on meanwhile: which are active, and
so who is called when a change is announced, in which order. A listener may begin and end
subscriptions while it is told of a change; what it does goes on with the chronicle and comes too
late for the round that it is called in. -/

namespace LiveTree

open TreeM

variable {σ α β : Type}

/-! ### Operations -/

/-- Whether one world becomes another by what can be told of the subscriptions of a wrapper. -/
def World.Continues (w : WrapperRef) (x y : World σ) : Prop := ∃ es, x.forest.Becomes w es y.forest

instance (w : WrapperRef) : IsPreorder (World σ) (World.Continues w) where
  refl _ := ⟨[], .refl⟩
  trans _ _ _ := fun ⟨_, h⟩ ⟨_, h'⟩ => ⟨_, h.trans h'⟩

/-- Whether all that an operation does to the subscriptions of a wrapper, before it ends or fails,
is that some of them begin and end. -/
def Told (w : WrapperRef) (m : TreeM σ α) : Prop := ∀ x, Moves (World.Continues w) m x

namespace Told

variable {w v : WrapperRef} {m : TreeM σ α} {k : α → TreeM σ β}

theorem pure (a : α) : Told w (Pure.pure a : TreeM σ α) := fun _ => .pure a

theorem throw (e : Fault) : Told w (MonadExcept.throw e : TreeM σ α) := fun _ => .throw e

theorem bind (hm : Told w m) (hk : ∀ a, Told w (k a)) : Told w (m >>= k) := fun x =>
  (hm x).bind fun a y _ _ => hk a y

theorem tryCatch {handler : Fault → TreeM σ α} (hm : Told w m) (hh : ∀ e, Told w (handler e)) :
    Told w (MonadExcept.tryCatch m handler) := fun x => (hm x).tryCatch fun e y _ _ => hh e y

theorem forest : Told w (TreeM.forest : TreeM σ Forest) := fun _ => .get_bind (.pure _)

theorem modifyForest {u : Forest → Forest} (hu : ∀ f : Forest, ∃ es, f.Becomes w es (u f)) :
    Told w (TreeM.modifyForest u : TreeM σ Unit) := fun x => .modifyGet (hu x.forest)

theorem updateForest {op : Forest → α × Forest}
    (hop : ∀ f : Forest, ∃ es, f.Becomes w es (op f).2) :
    Told w (TreeM.updateForest op : TreeM σ α) := fun x => .modifyGet (hop x.forest)

theorem checkAlive (v : WrapperRef) : Told w (TreeM.checkAlive v : TreeM σ Unit) := by
  refine bind forest fun f => ?_
  split
  exacts [throw _, pure _]

theorem subscribe (v : WrapperRef) (listener : ℕ) (filter : Option PathFilter) :
    Told w (TreeM.subscribe v listener filter : TreeM σ ℕ) := by
  by_cases hv : v = w
  · subst hv
    intro x
    rw [Moves]
    cases hgone : (x.forest.wrapper v).destroyed with
    | true =>
      rw [subscribe_of_destroyed hgone]
      exact ⟨[], .refl⟩
    | false =>
      have hrun : TreeM.subscribe v listener filter x = .ok _ _ := subscribe_of_live hgone rfl
      rw [hrun]
      exact ⟨_, .subscribed .refl hrun⟩
  · refine bind (checkAlive v) fun _ => updateForest fun f => ⟨[], ?_⟩
    dsimp only
    exact .of_modifyWrapper fun e => absurd e hv

theorem watch (v : WrapperRef) (listener : ℕ) (path : Path) :
    Told w (TreeM.watch v listener path : TreeM σ ℕ) := subscribe v listener _

theorem unsubscribe (v : WrapperRef) (number : ℕ) :
    Told w (TreeM.unsubscribe v number : TreeM σ Unit) := by
  by_cases hv : v = w
  · subst hv
    exact fun x => ⟨_, .unsubscribed .refl (rfl : TreeM.unsubscribe v number x = .ok () _)⟩
  · exact modifyForest fun _ => ⟨[], .of_modifyWrapper fun e => absurd e hv⟩

theorem unsubscribeAll (v : WrapperRef) : Told w (TreeM.unsubscribeAll v : TreeM σ Unit) := by
  by_cases hv : v = w
  · subst hv
    exact fun x => ⟨_, .cleared .refl (rfl : TreeM.unsubscribeAll v x = .ok () _)⟩
  · exact modifyForest fun _ => ⟨[], .of_modifyWrapper fun e => absurd e hv⟩

theorem destroy (v : WrapperRef) :
    Told w (TreeM.modifyForest (·.destroy v) : TreeM σ Unit) :=
  modifyForest fun f => Forest.Becomes.of_destroy f w v

/-! ### Notifications -/

theorem setBatched (v : WrapperRef) (held : Option (List Path)) :
    Told w (TreeM.setBatched v held : TreeM σ Unit) :=
  modifyForest fun _ => ⟨[], .of_modifyWrapper fun _ => ⟨rfl, rfl⟩⟩

section Notifying

variable {notify : Notify σ} (hnotify : ∀ listener paths, Told w (notify listener paths))

include hnotify

theorem tell (paths : List String) (l : List Subscriber) : Told w (TreeM.tell notify paths l) := by
  induction l with
  | nil => exact pure _
  | cons x rest ih =>
    rw [tell_cons, deliver]
    split
    exacts [bind (pure _) fun _ => ih, bind (hnotify _ _) fun _ => ih]

theorem emitTo (n : ℕ) (v : WrapperRef) (paths : List Path) :
    Told w (TreeM.emitTo notify n v paths) := by
  induction n generalizing v paths with
  | zero => exact pure _
  | succ n ih =>
    refine bind forest fun f => ?_
    dsimp only
    split
    · exact modifyForest fun _ => ⟨[], .of_modifyWrapper fun _ => ⟨rfl, rfl⟩⟩
    · refine bind (tell hnotify _ _) fun _ => bind forest fun f => ?_
      split
      exacts [ih _ _, pure _]

theorem emit (v : WrapperRef) (paths : List Path) : Told w (TreeM.emit notify v paths) :=
  emitTo hnotify _ v paths

theorem batch (v : WrapperRef) (hm : Told w m) : Told w (TreeM.batch notify v m) := by
  refine bind (checkAlive v) fun _ => bind forest fun f => ?_
  split
  · exact hm
  · refine bind (setBatched v _) fun _ => bind (tryCatch hm fun e => ?_) fun result => ?_
    · exact bind (setBatched v _) fun _ => throw e
    · refine bind forest fun f => bind (setBatched v _) fun _ => ?_
      split
      exacts [pure _, bind (emit hnotify v _) fun _ => pure _]

end Notifying

end Told

/-- What is put together from dealings with subscriptions, of one wrapper or of others, from
announcements, and from what has nothing to do with the subscriptions of that one. -/
inductive Deals (notify : Notify σ) (w : WrapperRef) : ∀ {α : Type}, TreeM σ α → Prop
  | pure {α : Type} (a : α) : Deals notify w (Pure.pure a : TreeM σ α)
  | throw {α : Type} (e : Fault) : Deals notify w (MonadExcept.throw e : TreeM σ α)
  | bind {α β : Type} {m : TreeM σ α} {k : α → TreeM σ β} (hm : Deals notify w m)
    (hk : ∀ a, Deals notify w (k a)) : Deals notify w (m >>= k)
  | tryCatch {α : Type} {m : TreeM σ α} {handler : Fault → TreeM σ α} (hm : Deals notify w m)
    (hh : ∀ e, Deals notify w (handler e)) : Deals notify w (MonadExcept.tryCatch m handler)
  | look : Deals notify w (MonadState.get : TreeM σ (World σ))
  | note (g : σ → σ) :
    Deals notify w (modify fun x => { x with user := g x.user } : TreeM σ Unit)
  | subscribe (v : WrapperRef) (listener : ℕ) (filter : Option PathFilter) :
    Deals notify w (TreeM.subscribe v listener filter)
  | watch (v : WrapperRef) (listener : ℕ) (path : Path) :
    Deals notify w (TreeM.watch v listener path)
  | unsubscribe (v : WrapperRef) (number : ℕ) : Deals notify w (TreeM.unsubscribe v number)
  | unsubscribeAll (v : WrapperRef) : Deals notify w (TreeM.unsubscribeAll v)
  | destroy (v : WrapperRef) : Deals notify w (modifyForest (·.destroy v))
  | emit (v : WrapperRef) (paths : List Path) : Deals notify w (TreeM.emit notify v paths)
  | batch {α : Type} (v : WrapperRef) {m : TreeM σ α} (hm : Deals notify w m) :
    Deals notify w (TreeM.batch notify v m)
  /-- Something else goes on. -/
  | aside {u : Forest → Forest} (hsize : ∀ f, f.wrappers.size ≤ (u f).wrappers.size)
    (hsame : ∀ f, ((u f).wrapper w).subscribers = (f.wrapper w).subscribers ∧
      ((u f).wrapper w).issued = (f.wrapper w).issued) : Deals notify w (modifyForest u)

/-- What listeners do when they are told of changes and may announce changes themselves, with so
many announcements inside one another. -/
def TreeM.nested (react : Notify σ → Notify σ) : ℕ → Notify σ
  | 0 => fun _ _ => throw .endless
  | limit + 1 => react (nested react limit)

section Dealing

variable {w : WrapperRef}

theorem Deals.told {notify : Notify σ} {m : TreeM σ α} (h : Deals notify w m)
    (hnotify : ∀ listener paths, Told w (notify listener paths)) : Told w m := by
  induction h with
  | pure a => exact .pure a
  | throw e => exact .throw e
  | bind _ _ ihm ihk => exact .bind ihm ihk
  | tryCatch _ _ ihm ihh => exact .tryCatch ihm ihh
  | look => exact fun x => refl_of (World.Continues w) x
  | note g => exact fun _ => .modifyGet ⟨[], .refl⟩
  | subscribe v listener filter => exact .subscribe v listener filter
  | watch v listener path => exact .watch v listener path
  | unsubscribe v number => exact .unsubscribe v number
  | unsubscribeAll v => exact .unsubscribeAll v
  | destroy v => exact .destroy v
  | emit v paths => exact .emit hnotify v paths
  | batch v _ ih => exact .batch hnotify v ih
  | aside hsize hsame =>
    exact .modifyForest fun f => ⟨[], .aside .refl (hsize f) (hsame f).1 (hsame f).2⟩

/-- So can all that listeners do be told, if they do nothing else. -/
theorem told_nested {react : Notify σ → Notify σ}
    (h : ∀ notify listener paths, Deals notify w (react notify listener paths)) (limit listener : ℕ)
    (paths : List String) : Told w (nested react limit listener paths) := by
  induction limit generalizing listener paths with
  | zero => exact .throw _
  | succ limit ih => exact (h _ listener paths).told ih

end Dealing

/-! ### Rounds -/

namespace TreeM

variable (notify : Notify σ)

/-- Announces further up what has been announced at a wrapper. -/
def emitAbove (n : ℕ) (w : WrapperRef) (paths : List Path) : TreeM σ Unit := do
  let f ← forest
  match (f.wrapper w).parent, f.keyInParent w with
  | some p, some key => emitTo notify n p (paths.map (key :: ·))
  | _, _ => return

/-- A round calls those whose filter lets a path pass, one after another. -/
theorem tell_eq_forM (paths : List String) (l : List Subscriber) :
    tell notify paths l =
      (l.filterMap (·.call? paths)).forM fun call => notify call.1 call.2 := by
  induction l with
  | nil => rfl
  | cons x rest ih =>
    rw [tell_cons, deliver, List.filterMap_cons, Subscriber.call?]
    cases (x.admitted paths).isEmpty with
    | true => exact ih
    | false => exact bind_congr fun _ => ih

/-- A change is announced in a round at the wrapper and then further up. -/
theorem emitTo_of_open {w : WrapperRef} {x : World σ} (h : (x.forest.wrapper w).batched = none)
    (n : ℕ) (paths : List Path) : emitTo notify (n + 1) w paths x =
      (tell notify (paths.map Text.undotted) (x.forest.wrapper w).subscribers >>= fun _ =>
        emitAbove notify n w paths) x := by
  rw [emitTo, forest_bind, h]
  rfl

end TreeM

/-- Whether the subscriptions of a wrapper are as a chronicle says. -/
structure Forest.Honours (g : Forest) (w : WrapperRef) (es : Chronicle) : Prop where
  /-- No name has been handed out twice. -/
  distinct : (es.handles.map ScriptM.subscriptionText).Nodup
  /-- A subscription is active if it has begun and nothing has ended it since. -/
  active {σ : Type} (u : σ) (number : ℕ) :
    isActive w number ⟨g, u⟩ = .ok (decide (es.Active number)) ⟨g, u⟩
  /-- The active subscriptions are counted. -/
  count : (g.wrapper w).subscribers.length = {number | es.Active number}.ncard
  /-- Nothing happens when a subscription that is not active is given up. -/
  given_up {σ : Type} (u : σ) (number : ℕ) (h : ¬ es.Active number) :
    unsubscribe w number ⟨g, u⟩ = .ok () ⟨g, u⟩
  /-- In a round, each active subscriber is called whose filter lets a path pass, in the order in
  which they have subscribed and whatever the calls do, and then the change is announced further up,
  all this up to the first call that fails. -/
  round {σ : Type} (notify : Notify σ) (u : σ) (n : ℕ) (paths : List Path)
    (h : (g.wrapper w).batched = none) : emitTo notify (n + 1) w paths ⟨g, u⟩ =
      ((es.standing.filterMap (·.call? (paths.map Text.undotted))).forM
        (fun call => notify call.1 call.2) >>= fun _ => emitAbove notify n w paths) ⟨g, u⟩

theorem subscriptionText_inj {n m : ℕ}
    (h : ScriptM.subscriptionText n = ScriptM.subscriptionText m) : n = m := by
  have hdigits : toString n = toString m := (String.append_right_inj "sub_").mp h
  rw [Nat.toString_eq_ofList_toDigits, Nat.toString_eq_ofList_toDigits, String.ofList_inj]
    at hdigits
  have hnumbers := congrArg (Nat.ofDigitChars 10 · 0) hdigits
  simpa only [Nat.ofDigitChars_ten_toDigits] using hnumbers

/-- A wrapper that has what a chronicle says does what it says. -/
theorem Chronicle.Fits.honoured {es : Chronicle} {g : Forest} {w : WrapperRef} (h : es.Fits g w) :
    g.Honours w es where
  distinct := h.nodup_handles.map fun _ _ => subscriptionText_inj
  active u number := by
    have hany : (g.wrapper w).subscribers.any (·.number = number) = decide (es.Active number) := by
      rw [Bool.eq_iff_iff, decide_eq_true_iff, ← mem_numbers_standing_iff, h.standing,
        List.any_eq_true, List.mem_map]
      simp
    rw [isActive, forest_bind]
    exact congrArg (EStateM.Result.ok · _) hany
  count := by
    have hset : {number | es.Active number} = ↑(es.standing.map Subscriber.number).toFinset := by
      ext number
      simpa using mem_numbers_standing_iff.symm
    rw [hset, Set.ncard_coe_finset, List.toFinset_card_of_nodup h.nodup_standing, List.length_map,
      h.standing]
  given_up u number hended := by
    have hkept : (g.wrapper w).subscribers.filter (·.number ≠ number) =
        (g.wrapper w).subscribers := by
      rw [List.filter_eq_self, h.standing]
      intro x hx
      refine decide_eq_true fun e => hended ?_
      exact mem_numbers_standing_iff.mp (List.mem_map.mpr ⟨x, hx, e⟩)
    have hsame : g.modifyWrapper w (fun x =>
        { x with subscribers := x.subscribers.filter (·.number ≠ number) }) = g :=
      Forest.modifyWrapper_eq_self (by rw [hkept])
    show EStateM.Result.ok () (World.mk (g.modifyWrapper w _) u) = _
    rw [hsame]
  round notify u n paths hopen := by
    rw [emitTo_of_open notify (x := ⟨g, u⟩) hopen, h.standing, tell_eq_forM]

/-- Whether an operation, whether it fails or not, goes on with what a chronicle says. -/
def Forest.CarriesOn (f : Forest) (w : WrapperRef) (es : Chronicle) (m : TreeM σ α) (x : World σ) :
    Prop :=
  ∃ more, f.Becomes w (es ++ more) (finalState (m x)).forest ∧
    (finalState (m x)).forest.Honours w (es ++ more)

/-- What the subscriptions of a wrapper that starts without any come to, when listeners subscribe to
it and watch it, subscriptions are given up, more than once and all at once, it is destroyed, and
whatever else goes on, in any order: no two of them have the same name; the active ones are those
that have begun and that nothing has ended since, and they are counted; giving up one that is not
active changes nothing; and a round calls just the active subscribers whose filter lets a path pass,
in order, if no call fails. While changes are announced, listeners may do all this in turn, also
inside one another, and it comes to the same. -/
theorem Forest.Becomes.honours {f g : Forest} {w : WrapperRef} {es : Chronicle}
    (hmade : w.index < f.wrappers.size) (hnone : (f.wrapper w).subscribers = [])
    (hissued : (f.wrapper w).issued = 0) (h : f.Becomes w es g) :
    g.Honours w es ∧
      ∀ {σ : Type} (react : Notify σ → Notify σ),
        (∀ notify listener paths, Deals notify w (react notify listener paths)) →
        ∀ (limit : ℕ) (u : σ) {α : Type} (m : TreeM σ α), Deals (nested react limit) w m →
          f.CarriesOn w es m ⟨g, u⟩ := by
  refine ⟨(h.fits hmade hnone hissued).honoured, fun react hreact limit u _ m hm => ?_⟩
  obtain ⟨more, hmore⟩ := hm.told (told_nested hreact limit) ⟨g, u⟩
  have hall := h.trans hmore
  exact ⟨more, hall, (hall.fits hmade hnone hissued).honoured⟩

/-- The form, listened to once everywhere and once at the address. -/
def Forest.heardForm : Forest :=
  (finalState ((do
    let _ ← subscribe ⟨0⟩ 0 none
    watch ⟨0⟩ 1 ["address"] : TreeM Unit ℕ) ⟨wrappedForm, ()⟩)).forest

/-- The first listener gives up its subscription when it is called, has another one listen, and
announces a change of the address. -/
def passingOn (notify : Notify Unit) : Notify Unit := fun listener _ =>
  if listener = 0 then do
    unsubscribe ⟨0⟩ 1
    let _ ← subscribe ⟨0⟩ 2 none
    emit notify ⟨0⟩ [["address"]]
  else pure ()

theorem deals_passingOn (notify : Notify Unit) (listener : ℕ) (paths : List String) :
    Deals notify ⟨0⟩ (passingOn notify listener paths) := by
  rw [passingOn]
  split
  · exact .bind (.unsubscribe _ _) fun _ => .bind (.subscribe _ _ _) fun _ => .emit _ _
  · exact .pure _

/-- The form's name changes and then the form is destroyed. -/
theorem heardForm_honours :
    let es : Chronicle := [.subscribed ⟨1, 0, none⟩, .subscribed ⟨2, 1, some (.within "address")⟩]
    let m : TreeM Unit Unit := emit (nested passingOn 2) ⟨0⟩ [["name"]]
    Forest.heardForm.Honours ⟨0⟩ es ∧
      Forest.wrappedForm.CarriesOn ⟨0⟩ es m ⟨Forest.heardForm, ()⟩ ∧
      ((finalState (m ⟨Forest.heardForm, ()⟩)).forest.wrapper ⟨0⟩).subscribers.map
        Subscriber.number = [2, 3] ∧
      (Forest.heardForm.destroy ⟨0⟩).Honours ⟨0⟩ (es ++ [.destroyed]) := by
  intro es m
  let first := subscribe (σ := Unit) ⟨0⟩ 0 none ⟨Forest.wrappedForm, ()⟩
  let second := watch (σ := Unit) ⟨0⟩ 1 ["address"] (finalState first)
  have hfirst : first = .ok 1 (finalState first) := rfl
  have hsecond : second = .ok 2 (finalState second) := rfl
  have h : Forest.wrappedForm.Becomes ⟨0⟩ es Forest.heardForm :=
    (Forest.Becomes.subscribed (.subscribed .refl hfirst) hsecond :)
  obtain ⟨hheard, hgoes⟩ := h.honours (by decide) rfl rfl
  have hgone := (h.destroyed_self (by decide)).honours (by decide) rfl rfl
  exact ⟨hheard, hgoes passingOn deals_passingOn 2 () m (.emit _ _), by decide, hgone.1⟩

end LiveTree
