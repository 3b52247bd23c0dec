import LiveTree.Proofs.Tree.Lasting
import Mathlib.Logic.Relation

/-! Which wrapper a living wrapper hands out for a child. It stands on the child's node, and it is
alive unless it has been destroyed on request while it was kept: destroying leaves the wrapper in
its place, where it goes on to be found. Every other way in which a wrapper is destroyed takes it
from its place. -/

namespace LiveTree

namespace Forest

variable {f g : Forest} {v w c d : WrapperRef} {key k : String} {requested : WrapperRef → Prop}

/-- Whether a program can come to a forest when it destroys, on request, only wrappers of which
something holds. -/
inductive ArisesBy (requested : WrapperRef → Prop) : Forest → Prop
  /-- At the start there is a store of any content and no wrapper. -/
  | start (s : Store) : ArisesBy requested ⟨s, #[]⟩
  /-- A node is wrapped; the wrapper has no parent. -/
  | wrap {f : Forest} (h : ArisesBy requested f) (r : NodeRef) (g : Option Registry) :
    ArisesBy requested (f.allocWrapper (.ofNode r g)).2
  /-- The cells change in any way, also behind the wrappers' backs. -/
  | store {f : Forest} (h : ArisesBy requested f) (s : Store) : ArisesBy requested { f with store := s }
  /-- The wrapper of a child is made, in place of the one that was kept. -/
  | renewed {f : Forest} (h : ArisesBy requested f) {w : WrapperRef}
    (hw : w.index < f.wrappers.size) (key : String) (r : NodeRef) :
    ArisesBy requested ((f.dropCached w key).wrapChild w key r).2
  /-- The wrapper of a child is forgotten. -/
  | dropped {f : Forest} (h : ArisesBy requested f) (w : WrapperRef) (key : String) :
    ArisesBy requested (f.dropCached w key)
  /-- The registry, the subscribers or what is held back change. -/
  | tuned {f : Forest} (h : ArisesBy requested f) (w : WrapperRef) {g : Wrapper → Wrapper}
    (hg : (f.wrapper w).SamePlace (g (f.wrapper w))) : ArisesBy requested (f.modifyWrapper w g)
  /-- A wrapper is destroyed on request. -/
  | destroyed {f : Forest} (h : ArisesBy requested f) {w : WrapperRef} (hr : requested w) :
    ArisesBy requested (f.destroy w)

theorem ArisesBy.arises (h : f.ArisesBy requested) : f.Arises true := by
  induction h with
  | start s => exact .start s
  | wrap _ r g ih => exact ih.wrap r g
  | store _ s ih => exact ih.store s
  | renewed _ hw key r ih => exact ih.renewed hw key r
  | dropped _ w key ih => exact ih.dropped w key
  | tuned _ w hg ih => exact ih.tuned w hg
  | destroyed _ _ ih => exact ih.destroyed rfl _

/-- Every forest that a program can come to is one of these. -/
theorem Arises.arisesBy {onRequest : Bool} (h : f.Arises onRequest) :
    f.ArisesBy fun _ => onRequest = true := by
  induction h with
  | start s => exact .start s
  | wrap _ r g ih => exact ih.wrap r g
  | store _ s ih => exact ih.store s
  | renewed _ hw key r ih => exact ih.renewed hw key r
  | dropped _ w key ih => exact ih.dropped w key
  | tuned _ w hg ih => exact ih.tuned w hg
  | destroyed _ hr w ih => exact ih.destroyed hr

/-- Destroying a wrapper destroys nothing else that is still kept. -/
theorem wrapper_of_kept (honce : ∀ v k v' k' c, (f.wrapper v).cache.get? k = some c →
      (f.wrapper v').cache.get? k' = some c → v' = v ∧ k' = k)
    (hc : ((f.destroy d).wrapper v).cache.get? k = some c) (hne : c ≠ d) :
    (f.destroy d).wrapper c = f.wrapper c := by
  have hfade := f.fades_destroy d
  rcases hfade.wrapper c with e | ⟨-, hdoomed | ⟨u, hu, hdetached⟩⟩
  · exact e
  · exact absurd (List.mem_singleton.mp hdoomed) hne
  · obtain ⟨k', hu⟩ := Entries.mem_values_iff.mp hu
    obtain ⟨rfl, -⟩ := honce v k u k' c (hfade.get?_cache hc) hu
    rw [hdetached] at hc
    cases hc

/-- Forgetting a wrapper destroys nothing that is still kept. -/
theorem Placed.destroyed_dropCached (h : f.Placed)
    (hc : ((f.dropCached w key).wrapper v).cache.get? k = some c) :
    ((f.dropCached w key).wrapper c).destroyed = (f.wrapper c).destroyed := by
  cases hd : (f.wrapper w).cache.get? key with
  | none => rw [dropCached_of_none hd]
  | some d =>
    rw [dropCached_eq hd] at hc ⊢
    have hkept := (f.forget w key).fades_destroy d |>.get?_cache hc
    have hne : c ≠ d := by
      rintro rfl
      obtain ⟨hfree, hkept⟩ := get?_forget.mp hkept
      obtain ⟨rfl, rfl⟩ := h.once w key v k c hd hkept
      exact hfree rfl rfl
    rw [wrapper_of_kept (fun v k v' k' c hv hv' => ?_) hc hne]
    · exact (f.unmoved_forget w key c).destroyed
    · exact h.once v k v' k' c (get?_forget.mp hv).2 (get?_forget.mp hv').2

/-- A kept wrapper that is destroyed has been destroyed on request. -/
theorem ArisesBy.requested_of_kept (h : f.ArisesBy requested)
    (hc : (f.wrapper v).cache.get? k = some c) (hd : (f.wrapper c).destroyed = true) :
    requested c := by
  induction h generalizing v k c with
  | start s =>
    rw [wrapper_start] at hc
    cases hc
  | @wrap f h r g ih =>
    have hc := get?_allocWrapper hc
    have hlt := h.arises.kept.cached_lt v c (Entries.mem_values_of_get? hc)
    rw [f.wrapper_allocWrapper_of_ne _ (Nat.ne_of_lt hlt)] at hd
    exact ih hc hd
  | store _ s ih => exact ih hc hd
  | @renewed f h w hw key r ih =>
    have hw' : w.index < (f.dropCached w key).wrappers.size := by rwa [size_dropCached]
    rcases get?_wrapChild hw' hc with ⟨-, -, rfl⟩ | hc'
    · rw [wrapper_wrapChild_new hw'] at hd
      cases hd
    · have hlt := (h.arises.kept.dropCached w key).cached_lt v c (Entries.mem_values_of_get? hc')
      obtain ⟨_, e⟩ := wrapper_wrapChild_old key r hw' (Nat.ne_of_lt hlt)
      rw [e] at hd
      rw [show _ = _ from h.arises.placed.destroyed_dropCached hc'] at hd
      exact ih ((f.dropCached_loses w key v).2 k c hc') hd
  | @dropped f h w key ih =>
    rw [h.arises.placed.destroyed_dropCached hc] at hd
    exact ih ((f.dropCached_loses w key v).2 k c hc) hd
  | tuned _ _ hg ih =>
    rw [(samePlace_modifyWrapper hg v).cache] at hc
    rw [(samePlace_modifyWrapper hg c).destroyed] at hd
    exact ih hc hd
  | @destroyed f h w hr ih =>
    by_cases e : c = w
    · exact e ▸ hr
    · rw [wrapper_of_kept h.arises.placed.once hc e] at hd
      exact ih ((f.fades_destroy w).get?_cache hc) hd

/-- As long as every wrapper destroyed on request is kept nowhere, every kept wrapper is alive. -/
theorem ArisesBy.lively (h : f.ArisesBy requested)
    (hgone : ∀ v k c, (f.wrapper v).cache.get? k = some c → ¬ requested c) : f.Lively := by
  intro v k c hc
  cases hd : (f.wrapper c).destroyed with
  | false => rfl
  | true => exact absurd (h.requested_of_kept hc hd) (hgone v k c hc)

/-- A wrapper hands out, for each child of its node, a wrapper that stands on the child and is the
one kept for it from then on. Either that wrapper is alive with this wrapper as its parent, or it
was destroyed on request before, while it was kept in this very place, and nothing changes. -/
theorem ArisesBy.child_hands (h : f.ArisesBy requested) (hw : w.index < f.wrappers.size)
    {r : NodeRef} (hr : (f.nodeAt w).children.get? key = some r) :
    ∃ c g, f.child w key = (some c, g) ∧ (g.wrapper c).node = r ∧
      (g.wrapper w).cache.get? key = some c ∧
      ((g.wrapper c).destroyed = false ∧ (g.wrapper c).parent = some w ∧
          (g.wrapper c).key = some key ∨
        requested c ∧ (f.wrapper c).destroyed = true ∧ (f.wrapper w).cache.get? key = some c ∧
          g = f) := by
  rcases f.child_cases w key with ⟨hnone, -⟩ | ⟨c, hc, hnode, e⟩ | ⟨r', hr', e⟩
  · cases hnone.symm.trans hr
  · refine ⟨c, f, e, Option.some.inj (hnode.symm.trans hr), hc, ?_⟩
    cases hd : (f.wrapper c).destroyed with
    | false => exact .inl ⟨rfl, h.arises.kept.place w key c hc hd⟩
    | true => exact .inr ⟨h.requested_of_kept hc hd, rfl, hc, rfl⟩
  · obtain rfl := Option.some.inj (hr.symm.trans hr')
    have hw' : w.index < (f.dropCached w key).wrappers.size := by rwa [size_dropCached]
    refine ⟨_, _, e, ?_, ?_, .inl ?_⟩
    · rw [wrapper_wrapChild_new hw']
      rfl
    · rw [wrapper_wrapChild_self hw']
      exact Entries.get?_insert_self _ _ _
    · rw [wrapper_wrapChild_new hw']
      exact ⟨rfl, rfl, rfl⟩

/-! ### What a wrapper holds -/

/-- Whether a wrapper is another one or is kept, directly or through others, by it. -/
def Holds (f : Forest) : WrapperRef → WrapperRef → Prop :=
  Relation.ReflTransGen fun v c => ∃ key, (f.wrapper v).cache.get? key = some c

namespace Holds

theorem index_le (h : f.Holds v c) (hk : f.Kept) : v.index ≤ c.index := by
  induction h with
  | refl => exact Nat.le_refl _
  | tail _ hc ih =>
    obtain ⟨key, hc⟩ := hc
    exact Nat.le_trans ih (Nat.le_of_lt (hk.after _ key _ hc))

theorem step (h : f.Holds v w) (hc : (f.wrapper w).cache.get? key = some c) : f.Holds v c :=
  h.tail ⟨key, hc⟩

/-- What is held goes on to be held as long as the wrappers made before it stay as they are. -/
theorem transfer (h : f.Holds v c) (hk : f.Kept)
    (hsame : ∀ u, u.index < c.index → g.wrapper u = f.wrapper u) : g.Holds v c := by
  induction h with
  | refl => exact .refl
  | @tail u c _ hc ih =>
    obtain ⟨key, hc⟩ := hc
    have hlt := hk.after u key c hc
    have hg : (g.wrapper u).cache.get? key = some c := by rwa [hsame u hlt]
    exact (ih fun u' hu' => hsame u' (Nat.lt_trans hu' hlt)).step hg

/-- Forgetting a wrapper gives nobody anything to hold. -/
theorem of_dropCached (h : (f.dropCached w key).Holds v c) : f.Holds v c := by
  induction h with
  | refl => exact .refl
  | @tail u c _ hc ih =>
    obtain ⟨k, hc⟩ := hc
    exact ih.step ((f.dropCached_loses w key u).2 k c hc)

/-- A new wrapper is the only one that comes to be held. -/
theorem of_wrapChild {r : NodeRef} (hw : w.index < f.wrappers.size)
    (h : (f.wrapChild w key r).2.Holds v c) : c = ⟨f.wrappers.size⟩ ∨ f.Holds v c := by
  induction h with
  | refl => exact .inr .refl
  | @tail u c _ hc ih =>
    obtain ⟨k, hc⟩ := hc
    rcases get?_wrapChild hw hc with ⟨-, -, rfl⟩ | hc
    · exact .inl rfl
    · refine .inr ((ih.resolve_left ?_).step hc)
      rintro rfl
      rw [wrapper_of_size_le (v := ⟨f.wrappers.size⟩) (Nat.le_refl _)] at hc
      cases hc

end Holds

/-- Whether everything that a wrapper holds is alive, with another wrapper among it. -/
structure Tended (f : Forest) (top v : WrapperRef) : Prop where
  placed : f.Placed
  made : top.index < f.wrappers.size
  live : ∀ c, f.Holds top c → (f.wrapper c).destroyed = false
  held : f.Holds top v

namespace Tended

variable {top u : WrapperRef}

theorem alive (h : f.Tended top v) : (f.wrapper v).destroyed = false := h.live v h.held

/-- Only the wrappers matter. -/
theorem of_wrappers (h : f.Tended top v) (e : g.wrappers = f.wrappers) : g.Tended top v := by
  obtain ⟨s, ws⟩ := f
  obtain ⟨t, ws'⟩ := g
  obtain rfl : ws' = ws := e
  exact ⟨{ h.placed.toKept.store t with once := h.placed.once, held := h.placed.held }, h.made,
    h.live, h.held⟩

theorem made_held (h : f.Tended top v) : v.index < f.wrappers.size := by
  rcases Relation.ReflTransGen.cases_tail h.held with rfl | ⟨u, -, key, hv⟩
  · exact h.made
  · exact h.placed.cached_lt u v (Entries.mem_values_of_get? hv)

/-- Asking a wrapper that is held for a child leaves everything that is held alive. -/
theorem live_child (h : f.Tended top u) (key : String) (c : WrapperRef)
    (hc : (f.child u key).2.Holds top c) : ((f.child u key).2.wrapper c).destroyed = false := by
  rcases f.child_cases u key with ⟨-, e⟩ | ⟨_, -, -, e⟩ | ⟨r, -, e⟩ <;> rw [e] at hc ⊢
  · exact h.live c hc
  · exact h.live c hc
  have hu : u.index < (f.dropCached u key).wrappers.size := by
    rw [size_dropCached]
    exact h.made_held
  by_cases hnew : c = ⟨(f.dropCached u key).wrappers.size⟩
  · rw [hnew, wrapper_wrapChild_new hu]
    rfl
  have hdrop := (Holds.of_wrapChild hu hc).resolve_left hnew
  have hlive := h.live c hdrop.of_dropCached
  have hold : c.index ≠ (f.dropCached u key).wrappers.size := fun e => hnew (congrArg WrapperRef.mk e)
  obtain ⟨_, e⟩ := wrapper_wrapChild_old key r hu hold
  rw [e]
  rcases Relation.ReflTransGen.cases_tail hdrop with rfl | ⟨v, -, k, hkept⟩
  · -- the upper wrapper was made before anything that is forgotten
    have hbeyond := h.placed.toKept.beyond_dropCached u key
    rcases Nat.lt_or_eq_of_le (h.held.index_le h.placed.toKept) with hlt | heq
    · show ((f.dropCached u key).wrapper _).destroyed = false
      rw [hbeyond.before _ hlt]
      exact hlive
    · obtain rfl : c = u := congrArg WrapperRef.mk heq
      obtain ⟨_, e⟩ := hbeyond.self
      show ((f.dropCached c key).wrapper _).destroyed = false
      rw [e]
      exact hlive
  · show ((f.dropCached u key).wrapper _).destroyed = false
    rw [h.placed.destroyed_dropCached hkept]
    exact hlive

/-- It leaves what was held down to the asked wrapper held, and what is given comes to be held. -/
theorem child (h : f.Tended top u) (key : String) :
    (∀ v, v.index ≤ u.index → f.Tended top v → (f.child u key).2.Tended top v) ∧
      ∀ c, (f.child u key).1 = some c → u.index < c.index ∧ (f.child u key).2.Tended top c := by
  have hkept := h.placed.toKept
  have hplaced := h.placed.child h.made_held key
  have hmade := Nat.lt_of_lt_of_le h.made (f.size_le_child u key)
  have hbeyond := hkept.beyond_child h.made_held key
  have hstay : ∀ v, v.index ≤ u.index → f.Holds top v → (f.child u key).2.Holds top v :=
    fun v hv hheld => hheld.transfer hkept fun a ha => hbeyond.before a (Nat.lt_of_lt_of_le ha hv)
  refine ⟨fun v hv hheld => ⟨hplaced, hmade, h.live_child key, hstay v hv hheld.held⟩,
    fun c hc => ?_⟩
  have hasks := hkept.asks h.made_held (Prod.ext hc rfl : f.child u key = (some c, _))
  exact ⟨hasks.after, hplaced, hmade, h.live_child key,
    (hstay u (Nat.le_refl _) h.held).step hasks.cache⟩

end Tended

end Forest

end LiveTree
