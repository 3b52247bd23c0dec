import LiveTree.Proofs.Tree.Destruction
import Mathlib.Tactic.Tauto

/-! What happens to the subscriptions of a wrapper. They begin, and end one by one or all at once,
when the wrapper is cleared or destroyed. What has happened is a chronicle, and a wrapper that
starts without subscriptions knows what the chronicle says of them: how many have begun, and which
of them have not ended, in the order in which they began. -/

namespace LiveTree

open TreeM

variable {σ α β : Type}

/-- What can happen to the subscriptions of a wrapper. -/
inductive Happening where
  | subscribed (x : Subscriber)
  | unsubscribed (number : ℕ)
  | cleared
  | destroyed

namespace Happening

/-- Whether a subscription ends by a happening, if it has not ended before. -/
def Ends (number : ℕ) : Happening → Prop
  | subscribed _ => False
  | unsubscribed n => number = n
  | cleared | destroyed => True

instance (number : ℕ) : DecidablePred (Ends number)
  | subscribed _ => .isFalse id
  | unsubscribed n => decEq number n
  | cleared | destroyed => .isTrue trivial

/-- The subscription that begins. -/
def begun? : Happening → Option Subscriber
  | subscribed x => some x
  | _ => none

end Happening

/-- What has happened to the subscriptions of a wrapper, in order. -/
abbrev Chronicle : Type := List Happening

namespace Chronicle

variable {es : Chronicle} {e : Happening} {x : Subscriber} {number : ℕ}

/-- All subscriptions that have begun, in order. -/
def subscribers (es : Chronicle) : List Subscriber := es.filterMap Happening.begun?

/-- The numbers that have been handed out, in order. -/
def handles (es : Chronicle) : List ℕ := es.subscribers.map Subscriber.number

/-- Whether a subscription has begun under a number and nothing has ended it since. -/
def Active (es : Chronicle) (number : ℕ) : Prop :=
  ∃ earlier x later, es = earlier ++ .subscribed x :: later ∧ x.number = number ∧
    ∀ e ∈ later, ¬ e.Ends number

theorem not_active_nil : ¬ Active [] number := by
  rintro ⟨earlier, x, later, h, -⟩
  exact List.append_ne_nil_of_right_ne_nil earlier (List.cons_ne_nil _ _) h.symm

theorem active_cons_iff : Active (e :: es) number ↔
    ((e.begun?.any (·.number = number)) ∧ ∀ e' ∈ es, ¬ e'.Ends number) ∨ es.Active number := by
  constructor
  · rintro ⟨earlier, x, later, h, hx, hlater⟩
    cases earlier with
    | nil =>
      obtain ⟨rfl, rfl⟩ := List.cons.inj h
      exact .inl ⟨by simpa [Happening.begun?] using hx, hlater⟩
    | cons _ earlier => exact .inr ⟨earlier, x, later, (List.cons.inj h).2, hx, hlater⟩
  · rintro (⟨hbegun, hlater⟩ | ⟨earlier, x, later, rfl, hx, hlater⟩)
    · cases e with
      | subscribed x => exact ⟨[], x, es, rfl, by simpa [Happening.begun?] using hbegun, hlater⟩
      | unsubscribed | cleared | destroyed => simp [Happening.begun?] at hbegun
    · exact ⟨e :: earlier, x, later, rfl, hx, hlater⟩

instance decidableActive : ∀ (es : Chronicle) (number : ℕ), Decidable (es.Active number)
  | [], _ => .isFalse not_active_nil
  | _ :: es, number =>
    have := decidableActive es number
    decidable_of_iff _ active_cons_iff.symm

/-- The subscriptions that are active, in the order in which they began. -/
def standing (es : Chronicle) : List Subscriber :=
  es.subscribers.filter fun x => es.Active x.number

/-- What happens last ends subscriptions or begins one. -/
theorem active_concat_iff : Active (es ++ [e]) number ↔
    (es.Active number ∧ ¬ e.Ends number) ∨ e.begun?.any (·.number = number) := by
  induction es with
  | nil => simp [active_cons_iff, not_active_nil]
  | cons a rest ih =>
    rw [List.cons_append, active_cons_iff, ih, active_cons_iff]
    simp only [List.forall_mem_append, List.forall_mem_singleton]
    tauto

theorem subscribers_concat (es : Chronicle) (e : Happening) :
    subscribers (es ++ [e]) = es.subscribers ++ e.begun?.toList := by
  cases h : e.begun? <;> simp [subscribers, h]

theorem handles_concat (es : Chronicle) (x : Subscriber) :
    handles (es ++ [.subscribed x]) = es.handles ++ [x.number] := by
  rw [handles, subscribers_concat, List.map_append]
  rfl

/-- A new subscription comes last. -/
theorem standing_subscribed (h : x.number ∉ es.handles) :
    standing (es ++ [.subscribed x]) = es.standing ++ [x] := by
  have hself : Active (es ++ [.subscribed x]) x.number :=
    active_concat_iff.mpr (.inr (by simp [Happening.begun?]))
  rw [standing, subscribers_concat, List.filter_append, standing]
  congr 1
  · -- nothing that has ended is active again, since the number is a new one
    refine List.filter_congr fun y hy => decide_eq_decide.mpr ?_
    have hne : x.number ≠ y.number := fun e => h (e ▸ List.mem_map_of_mem hy)
    simp [active_concat_iff, Happening.Ends, Happening.begun?, hne]
  · simp [Happening.begun?, hself]

/-- What begins no subscription leaves those that it does not end. -/
theorem standing_ended (h : e.begun? = none) :
    standing (es ++ [e]) = es.standing.filter fun x => ¬ e.Ends x.number := by
  rw [standing, subscribers_concat, h, Option.toList_none, List.append_nil, standing,
    List.filter_filter]
  refine List.filter_congr fun x _ => ?_
  rw [Bool.eq_iff_iff, decide_eq_true_iff, active_concat_iff, h]
  simp [and_comm]

theorem mem_handles_of_active (h : es.Active number) : number ∈ es.handles := by
  obtain ⟨earlier, x, later, rfl, rfl, -⟩ := h
  exact List.mem_map_of_mem (List.mem_filterMap.mpr ⟨.subscribed x, by simp, rfl⟩)

theorem mem_numbers_standing_iff :
    number ∈ es.standing.map Subscriber.number ↔ es.Active number := by
  constructor
  · intro h
    obtain ⟨x, hx, rfl⟩ := List.mem_map.mp h
    exact of_decide_eq_true (List.mem_filter.mp hx).2
  · intro h
    obtain ⟨x, hx, rfl⟩ := List.mem_map.mp (mem_handles_of_active h)
    exact List.mem_map_of_mem (List.mem_filter.mpr ⟨hx, decide_eq_true h⟩)

end Chronicle

/-! ### What happens -/

/-- Whether a forest becomes another one while these things happen, one after another, to the
subscriptions of a wrapper. -/
inductive Forest.Becomes (f : Forest) (w : WrapperRef) : Chronicle → Forest → Prop
  | refl : Becomes f w [] f
  /-- A listener subscribes, or watches a path. -/
  | subscribed {σ : Type} {es : Chronicle} {x y : World σ} {listener number : ℕ}
    {filter : Option PathFilter} (h : Becomes f w es x.forest)
    (hrun : TreeM.subscribe w listener filter x = .ok number y) :
    Becomes f w (es ++ [.subscribed ⟨number, listener, filter⟩]) y.forest
  /-- A subscription is given up, whether it is active or not. -/
  | unsubscribed {σ : Type} {es : Chronicle} {x y : World σ} {number : ℕ}
    (h : Becomes f w es x.forest) (hrun : TreeM.unsubscribe w number x = .ok () y) :
    Becomes f w (es ++ [.unsubscribed number]) y.forest
  /-- All subscriptions are given up. -/
  | cleared {σ : Type} {es : Chronicle} {x y : World σ} (h : Becomes f w es x.forest)
    (hrun : TreeM.unsubscribeAll w x = .ok () y) : Becomes f w (es ++ [.cleared]) y.forest
  /-- The wrapper is destroyed, on request or together with one that keeps it. -/
  | destroyed {es : Chronicle} {g : Forest} (h : Becomes f w es g) (v : WrapperRef)
    (hgone : (g.destroy v).wrapper w = (g.wrapper w).detached) :
    Becomes f w (es ++ [.destroyed]) (g.destroy v)
  /-- Something else goes on. -/
  | aside {es : Chronicle} {g k : Forest} (h : Becomes f w es g)
    (hsize : g.wrappers.size ≤ k.wrappers.size)
    (hsubscribers : (k.wrapper w).subscribers = (g.wrapper w).subscribers)
    (hissued : (k.wrapper w).issued = (g.wrapper w).issued) : Becomes f w es k

/-- Whether a wrapper knows of its subscriptions what a chronicle says. -/
structure Chronicle.Fits (es : Chronicle) (g : Forest) (w : WrapperRef) : Prop where
  made : w.index < g.wrappers.size
  handles : es.handles = List.range' 1 (g.wrapper w).issued
  standing : (g.wrapper w).subscribers = es.standing

namespace Chronicle.Fits

variable {es : Chronicle} {g k : Forest} {w : WrapperRef}

/-- A subscription begins under the next number. -/
theorem begun (h : es.Fits g w) {number : ℕ} (hnumber : number = (g.wrapper w).issued + 1)
    (listener : ℕ) (filter : Option PathFilter) :
    Fits (es ++ [.subscribed ⟨number, listener, filter⟩]) (g.modifyWrapper w fun a =>
      { a with
        issued := number
        subscribers := a.subscribers ++ [⟨number, listener, filter⟩] }) w where
  made := by
    rw [Forest.size_modifyWrapper]
    exact h.made
  handles := by
    rw [handles_concat, h.handles, Forest.wrapper_modifyWrapper_self h.made]
    show _ ++ [number] = List.range' 1 number
    rw [hnumber, List.range'_1_concat, Nat.add_comm 1]
  standing := by
    have hfresh : number ∉ es.handles := by
      rw [h.handles, List.mem_range'_1]
      omega
    rw [standing_subscribed hfresh, Forest.wrapper_modifyWrapper_self h.made, h.standing]

/-- Subscriptions end. -/
theorem ended (h : es.Fits g w) {e : Happening} (he : e.begun? = none)
    (hsize : k.wrappers.size = g.wrappers.size)
    (hissued : (k.wrapper w).issued = (g.wrapper w).issued)
    (hsubscribers : (k.wrapper w).subscribers =
      (g.wrapper w).subscribers.filter fun x => ¬ e.Ends x.number) : Fits (es ++ [e]) k w where
  made := by
    rw [hsize]
    exact h.made
  handles := by
    rw [Chronicle.handles, subscribers_concat, he, Option.toList_none, List.append_nil, hissued]
    exact h.handles
  standing := by rw [hsubscribers, standing_ended he, h.standing]

theorem aside (h : es.Fits g w) (hsize : g.wrappers.size ≤ k.wrappers.size)
    (hsubscribers : (k.wrapper w).subscribers = (g.wrapper w).subscribers)
    (hissued : (k.wrapper w).issued = (g.wrapper w).issued) : es.Fits k w where
  made := Nat.lt_of_lt_of_le h.made hsize
  handles := by rw [hissued, h.handles]
  standing := by rw [hsubscribers, h.standing]

theorem nodup_handles (h : es.Fits g w) : es.handles.Nodup := h.handles ▸ List.nodup_range'

theorem nodup_standing (h : es.Fits g w) : (es.standing.map Subscriber.number).Nodup :=
  h.nodup_handles.sublist (List.filter_sublist.map _)

end Chronicle.Fits

namespace TreeM

variable {w : WrapperRef} {listener number : ℕ} {filter : Option PathFilter} {x y : World σ}

theorem subscribe_of_live (h : (x.forest.wrapper w).destroyed = false)
    (hnumber : number = (x.forest.wrapper w).issued + 1) :
    subscribe w listener filter x = .ok number
      { x with forest := x.forest.modifyWrapper w fun a =>
        { a with
          issued := number
          subscribers := a.subscribers ++ [⟨number, listener, filter⟩] } } := by
  subst hnumber
  rw [subscribe, bind_of_ok (checkAlive_of_live h)]
  rfl

/-- A destroyed wrapper takes no subscriptions. -/
theorem subscribe_of_destroyed (h : (x.forest.wrapper w).destroyed = true) :
    subscribe w listener filter x = .error (.destroyed (x.forest.nodeAt w).id) x :=
  checkAlive_bind_of_destroyed h _

theorem subscribe_eq_ok (h : subscribe w listener filter x = .ok number y) :
    number = (x.forest.wrapper w).issued + 1 ∧ y.forest = x.forest.modifyWrapper w fun a =>
      { a with
        issued := number
        subscribers := a.subscribers ++ [⟨number, listener, filter⟩] } := by
  cases hgone : (x.forest.wrapper w).destroyed with
  | true =>
    rw [subscribe_of_destroyed hgone] at h
    cases h
  | false =>
    rw [subscribe_of_live hgone rfl] at h
    cases h
    exact ⟨rfl, rfl⟩

end TreeM

namespace Forest

variable {f g k : Forest} {w v : WrapperRef} {es es' : Chronicle}

/-- A change that comes to nothing. -/
theorem modifyWrapper_eq_self {u : Wrapper → Wrapper} (h : u (f.wrapper w) = f.wrapper w) :
    f.modifyWrapper w u = f := by
  rw [modifyWrapper, h]
  by_cases hw : w.index < f.wrappers.size
  · simp [wrapper, Array.getD, Array.setIfInBounds, hw]
  · simp [Array.setIfInBounds, hw]

/-- Destroying a wrapper detaches it. -/
theorem wrapper_destroy_self (hw : w.index < f.wrappers.size) :
    (f.destroy w).wrapper w = (f.wrapper w).detached := by
  have hfade := fades_destroy f w
  obtain ⟨x, hlast⟩ : ∃ x : Wrapper, (f.destroy w).wrapper w = x.detached := by
    obtain ⟨n, hn⟩ := Nat.exists_eq_add_one_of_ne_zero (Nat.ne_zero_of_lt hw)
    have hsize := hfade.size
    -- the wrapper itself comes last, after all that it keeps
    rw [destroy, hn, destroyTo] at hsize ⊢
    exact ⟨_, wrapper_modifyWrapper_self (by rw [size_modifyWrapper] at hsize; omega)⟩
  rcases hfade.detached_or w with e | e
  · rw [hlast, e.symm.trans hlast]
    rfl
  · exact e

namespace Becomes

theorem trans (h : f.Becomes w es g) (h' : g.Becomes w es' k) : f.Becomes w (es ++ es') k := by
  induction h' with
  | refl => rwa [List.append_nil]
  | subscribed _ hrun ih => rw [← List.append_assoc]; exact .subscribed ih hrun
  | unsubscribed _ hrun ih => rw [← List.append_assoc]; exact .unsubscribed ih hrun
  | cleared _ hrun ih => rw [← List.append_assoc]; exact .cleared ih hrun
  | destroyed _ v hgone ih => rw [← List.append_assoc]; exact .destroyed ih v hgone
  | aside _ hsize hsubscribers hissued ih => exact .aside ih hsize hsubscribers hissued

/-- A wrapper that starts without subscriptions knows what happens to them. -/
theorem fits (h : f.Becomes w es g) (hmade : w.index < f.wrappers.size)
    (hnone : (f.wrapper w).subscribers = []) (hissued : (f.wrapper w).issued = 0) :
    es.Fits g w := by
  induction h with
  | refl => exact ⟨hmade, by rw [hissued]; rfl, hnone⟩
  | subscribed _ hrun ih =>
    obtain ⟨hnumber, hy⟩ := subscribe_eq_ok hrun
    rw [hy]
    exact ih.begun hnumber _ _
  | unsubscribed _ hrun ih =>
    cases hrun
    refine ih.ended rfl (size_modifyWrapper _ _ _) ?_ ?_ <;>
      rw [wrapper_modifyWrapper_self ih.made]
    exact List.filter_congr fun x _ => decide_eq_decide.mpr Iff.rfl
  | cleared _ hrun ih =>
    cases hrun
    refine ih.ended rfl (size_modifyWrapper _ _ _) ?_ ?_ <;>
      rw [wrapper_modifyWrapper_self ih.made]
    simp [Happening.Ends]
  | destroyed _ v hgone ih =>
    refine ih.ended rfl (fades_destroy _ v).size ?_ ?_ <;> rw [hgone, Wrapper.detached]
    simp [Happening.Ends]
  | aside _ hsize hsubscribers hissued ih => exact ih.aside hsize hsubscribers hissued

/-- A wrapper is destroyed on request. -/
theorem destroyed_self (h : f.Becomes w es g) (hw : w.index < g.wrappers.size) :
    f.Becomes w (es ++ [.destroyed]) (g.destroy w) :=
  h.destroyed w (wrapper_destroy_self hw)

/-- What leaves the subscriptions alone is not told, and neither is a change of another wrapper. -/
theorem of_modifyWrapper {u : Wrapper → Wrapper}
    (hu : v = w → (u (f.wrapper w)).subscribers = (f.wrapper w).subscribers ∧
      (u (f.wrapper w)).issued = (f.wrapper w).issued) : f.Becomes w [] (f.modifyWrapper v u) := by
  have hsame : ((f.modifyWrapper v u).wrapper w).subscribers = (f.wrapper w).subscribers ∧
      ((f.modifyWrapper v u).wrapper w).issued = (f.wrapper w).issued := by
    rcases f.wrapper_modifyWrapper (g := u) v w with ⟨e, rfl⟩ | e <;> rw [e]
    exacts [hu rfl, ⟨rfl, rfl⟩]
  exact .aside .refl (f.size_modifyWrapper v u).ge hsame.1 hsame.2

/-- Destroying a wrapper may destroy others. -/
theorem of_destroy (f : Forest) (w v : WrapperRef) : ∃ es, f.Becomes w es (f.destroy v) := by
  have hfade := fades_destroy f v
  rcases hfade.detached_or w with e | e
  · exact ⟨[], .aside .refl hfade.size.ge (by rw [e]) (by rw [e])⟩
  · exact ⟨[.destroyed], .destroyed .refl v e⟩

end Becomes

end Forest

end LiveTree
