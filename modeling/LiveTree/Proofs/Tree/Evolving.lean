import LiveTree.Proofs.Store.Making
import LiveTree.Proofs.Tree.ByPath
import LiveTree.Proofs.Tree.Resync

/-! Forests that evolve. One forest comes from another by what operations on wrappers do, one after
another: nodes are wrapped, the store develops, children are asked for, added and removed, wrappers
are tuned, a transaction is rolled back, and, where that is allowed, wrappers are destroyed on
request. Which children are added and removed is kept track of, by the node and the key. Whatever
happens, wrappers stay on their nodes, what is destroyed stays so, and nodes stay what they are. -/

namespace LiveTree

open Store

variable {s t u : Store}

/-! ### What a transaction saves and puts back -/

/-- Whether records of nodes have the id, type, kind and maps that the nodes have in a store, as far
as they are there. -/
def Saved.Records (saved : Saved) (s : Store) : Prop :=
  ∀ p ∈ saved, s.Has (.node p.1) →
    (s.node p.1).Akin p.2 ∧ ∀ role, p.2.entries role = (s.node p.1).entries role

/-- Saving adds cells at most, and if it succeeds it has recorded the nodes. -/
theorem keeps_extends_capture (r : NodeRef) :
    Keeps (s.Extends ·) (capture r) fun saved => saved.Records s := by
  have hone : ∀ q, Keeps (s.Extends ·) (savedNode q) fun p => Saved.Records [p] s := by
    intro q
    refine .bind .get fun t ht => ?_
    refine .bind (keeps_extends_copyValue _) fun value _ => ?_
    refine .bind (keeps_extends_copyValue _) fun default _ => ?_
    refine .pure (List.forall_mem_singleton.mpr fun hq => ?_)
    rw [ht.node hq]
    exact ⟨⟨rfl, rfl, rfl⟩, by rintro (_ | _ | _) <;> rfl⟩
  refine .bind .get fun t _ => (Keeps.mapM fun q _ => hone q).mono fun saved hsaved p hp => ?_
  exact hsaved p hp p (List.mem_singleton.mpr rfl)

/-- From a node of a store in order, only nodes that are there are saved. -/
theorem keeps_has_capture (hs : s.Orderly) {r : NodeRef} (hr : s.Has (.node r)) :
    Keeps (s.Extends ·) (capture r) fun saved => ∀ p ∈ saved, s.Has (.node p.1) := by
  refine .bind .get fun t ht => .mapM fun q hq => ?_
  have hq : s.Has (.node q) := by
    refine forall_mem_reachTo (P := fun q => s.Has (.node q)) (fun q hq p hp => ?_)
      (List.forall_mem_nil _) (List.forall_mem_singleton.mpr hr) q hq
    obtain ⟨role, hp⟩ := mem_heldLast.mp hp
    rw [ht.node hq] at hp
    exact hs.entries q role p hp
  exact .bind .get fun _ _ => .bind (keeps_extends_copyValue _) fun _ _ =>
    .bind (keeps_extends_copyValue _) fun _ _ => .pure hq

theorem Developing.capture {known : List NodeRef} (r : NodeRef) :
    Developing known (LiveTree.capture r) fun saved => saved.flatMap fun _ => [] :=
  look_at fun _ => mapM fun _ _ => look_at fun _ => (copyValue _).bind fun _ =>
    (copyValue _).bind fun _ => pure (List.nil_subset _)

/-- What is put back is a record; all else stays. -/
theorem Store.node_restore_cases (saved : Saved) (s : Store) (r : NodeRef) :
    (s.restore saved).node r = s.node r ∨
      s.Has (.node r) ∧ ∃ n, (r, n) ∈ saved ∧ (s.restore saved).node r = n := by
  induction saved generalizing s with
  | nil => exact .inl rfl
  | cons p rest ih =>
    obtain ⟨q, n⟩ := p
    rcases ih (s.setNode q n) with e | ⟨hr, m, hm, e⟩
    · by_cases hq : r = q
      · subst hq
        by_cases hr : s.Has (.node r)
        · exact .inr ⟨hr, n, List.mem_cons_self, e.trans (node_setNode_self s r n hr)⟩
        · exact .inl (e.trans (agree_setNode_of_not_has hr))
      · exact .inl (e.trans (node_setNode_of_ne s n hq))
    · exact .inr ⟨(has_setNode q n).mp hr, m, List.mem_cons_of_mem _ hm, e⟩

theorem Store.has_restore (saved : Saved) (s : Store) (v : Value) :
    (s.restore saved).Has v ↔ s.Has v := by
  induction saved generalizing s with
  | nil => rfl
  | cons p rest ih => exact (ih _).trans (has_setNode _ _)

namespace Forest

variable {f g h : Forest} {v w : WrapperRef}

/-! ### What stays of wrappers -/

/-- Whether wrappers have stayed on their nodes, have lost parents at most, and those that were
destroyed have stayed so, and no nodes have been lost. -/
structure Ages (f g : Forest) : Prop where
  size_le : f.wrappers.size ≤ g.wrappers.size
  node : ∀ v, v.index < f.wrappers.size → (g.wrapper v).node = (f.wrapper v).node
  parent : ∀ v, v.index < f.wrappers.size →
    (g.wrapper v).parent = (f.wrapper v).parent ∨ (g.wrapper v).parent = none
  destroyed : ∀ v, (f.wrapper v).destroyed = true → (g.wrapper v).destroyed = true
  has : ∀ r, f.store.Has (.node r) → g.store.Has (.node r)

theorem wrapChild_snd (f : Forest) (w : WrapperRef) (key : String) (r : NodeRef) :
    (f.wrapChild w key r).2 = (f.allocWrapper (childWrapper w key r)).2.modifyWrapper w fun x =>
      { x with cache := x.cache.insert key ⟨f.wrappers.size⟩ } := rfl

namespace Ages

theorem refl (f : Forest) : Ages f f :=
  ⟨Nat.le_refl _, fun _ _ => rfl, fun _ _ => .inl rfl, fun _ hv => hv, fun _ hr => hr⟩

theorem trans (hfg : Ages f g) (hgh : Ages g h) : Ages f h where
  size_le := Nat.le_trans hfg.size_le hgh.size_le
  node v hv := (hgh.node v (Nat.lt_of_lt_of_le hv hfg.size_le)).trans (hfg.node v hv)
  parent v hv := by
    rcases hgh.parent v (Nat.lt_of_lt_of_le hv hfg.size_le) with e | e
    · rw [e]
      exact hfg.parent v hv
    · exact .inr e
  destroyed v hv := hgh.destroyed v (hfg.destroyed v hv)
  has r hr := hgh.has r (hfg.has r hr)

/-- It is enough to look at wrappers that have been made. -/
theorem of_made (hsize : f.wrappers.size ≤ g.wrappers.size)
    (hhas : ∀ r, f.store.Has (.node r) → g.store.Has (.node r))
    (hmade : ∀ v, v.index < f.wrappers.size → (g.wrapper v).node = (f.wrapper v).node ∧
      ((g.wrapper v).parent = (f.wrapper v).parent ∨ (g.wrapper v).parent = none) ∧
      ((f.wrapper v).destroyed = true → (g.wrapper v).destroyed = true)) : Ages f g where
  size_le := hsize
  node v hv := (hmade v hv).1
  parent v hv := (hmade v hv).2.1
  destroyed v hdestroyed := by
    refine (hmade v (Nat.lt_of_not_le fun hle => ?_)).2.2 hdestroyed
    rw [wrapper_of_size_le hle] at hdestroyed
    cases hdestroyed
  has := hhas

theorem store (hs : ∀ r, f.store.Has (.node r) → s.Has (.node r)) : Ages f { f with store := s } :=
  of_made (Nat.le_refl _) hs fun _ _ => ⟨rfl, .inl rfl, id⟩

theorem modifyNodeAt (f : Forest) (w : WrapperRef) (n : Node → Node) :
    Ages f (f.modifyNodeAt w n) := store fun _ hr => (has_setNode _ _).mpr hr

theorem allocWrapper (f : Forest) (x : Wrapper) : Ages f (f.allocWrapper x).2 := by
  refine of_made ?_ (fun _ hr => hr) fun v hv => ?_
  · rw [size_allocWrapper]
    exact Nat.le_succ _
  · rw [f.wrapper_allocWrapper_of_ne x (Nat.ne_of_lt hv)]
    exact ⟨rfl, .inl rfl, id⟩

theorem modifyWrapper {n : Wrapper → Wrapper} (hnode : (n (f.wrapper w)).node = (f.wrapper w).node)
    (hparent : (n (f.wrapper w)).parent = (f.wrapper w).parent)
    (hdestroyed : (n (f.wrapper w)).destroyed = (f.wrapper w).destroyed) :
    Ages f (f.modifyWrapper w n) := by
  refine of_made (Nat.le_of_eq (size_modifyWrapper _ _ _).symm) (fun _ hr => hr) fun v _ => ?_
  rcases f.wrapper_modifyWrapper (g := n) w v with ⟨e, rfl⟩ | e <;> rw [e]
  · exact ⟨hnode, .inl hparent, fun h => hdestroyed.trans h⟩
  · exact ⟨rfl, .inl rfl, id⟩

theorem destroy (f : Forest) (w : WrapperRef) : Ages f (f.destroy w) := by
  have hfade := f.fades_destroy w
  refine of_made (Nat.le_of_eq hfade.size.symm) (fun r hr => by rwa [hfade.store]) fun v _ => ?_
  rcases hfade.detached_or v with e | e <;> rw [e]
  · exact ⟨rfl, .inl rfl, id⟩
  · exact ⟨rfl, .inr rfl, fun _ => rfl⟩

theorem dropCached (f : Forest) (w : WrapperRef) (key : String) : Ages f (f.dropCached w key) := by
  cases hd : (f.wrapper w).cache.get? key with
  | none =>
    rw [dropCached_of_none hd]
    exact refl f
  | some d =>
    rw [dropCached_eq hd]
    exact (modifyWrapper rfl rfl rfl).trans (destroy _ d)

theorem wrapChild (f : Forest) (w : WrapperRef) (key : String) (r : NodeRef) :
    Ages f (f.wrapChild w key r).2 := by
  rw [wrapChild_snd]
  exact (allocWrapper f _).trans (modifyWrapper rfl rfl rfl)

theorem child (f : Forest) (w : WrapperRef) (key : String) : Ages f (f.child w key).2 := by
  rcases f.child_cases w key with ⟨-, e⟩ | ⟨_, -, -, e⟩ | ⟨r, -, e⟩ <;> rw [e]
  exacts [refl f, refl f, (dropCached f w key).trans (wrapChild _ w key r)]

theorem syncCache (hk : f.Kept) (w : WrapperRef) : Ages f (f.syncCache w) :=
  syncCacheTo_induction _ w hk (refl f) fun _ v key _ hg _ => hg.trans (dropCached _ v key)

end Ages

/-! ### Evolving -/

variable {edits : NodeRef → String → Prop} {b : Bool}

/-- Whether a forest comes from another by what operations on wrappers do. Children are added and
removed only where that is allowed, and so are wrappers destroyed on request. -/
inductive Evolves (edits : NodeRef → String → Prop) (onRequest : Bool) : Forest → Forest → Prop
  | refl (f : Forest) : Evolves edits onRequest f f
  /-- A node is wrapped. -/
  | wrapped {f g : Forest} (h : Evolves edits onRequest f g) {r : NodeRef}
      (hr : g.store.Has (.node r)) (registry : Option Registry) :
    Evolves edits onRequest f (g.allocWrapper (.ofNode r registry)).2
  /-- Nodes are made, values and attributes change, other cells do anything. -/
  | cells {f g : Forest} (h : Evolves edits onRequest f g) {s : Store} (hs : g.store.Develops s) :
    Evolves edits onRequest f { g with store := s }
  /-- A wrapper is asked for a child. -/
  | asked {f g : Forest} (h : Evolves edits onRequest f g) {w : WrapperRef}
      (hw : w.index < g.wrappers.size) (key : String) :
    Evolves edits onRequest f (g.child w key).2
  /-- A child is added or replaced. -/
  | added {f g : Forest} (h : Evolves edits onRequest f g) {w : WrapperRef}
      (hw : w.index < g.wrappers.size) {key : String} (he : edits (g.wrapper w).node key)
      {r : NodeRef} (hr : g.store.Has (.node r)) :
    Evolves edits onRequest f (((g.modifyNodeAt w fun n =>
      { n with children := n.children.insert key r }).dropCached w key).wrapChild w key r).2
  /-- A child is removed. -/
  | removed {f g : Forest} (h : Evolves edits onRequest f g) (w : WrapperRef) {key : String}
      (he : edits (g.wrapper w).node key) :
    Evolves edits onRequest f ((g.modifyNodeAt w fun n =>
      { n with children := n.children.erase key }).dropCached w key)
  /-- The registry, the subscribers or what is held back change. -/
  | tuned {f g : Forest} (h : Evolves edits onRequest f g) (w : WrapperRef) {u : Wrapper → Wrapper}
      (hu : (g.wrapper w).SamePlace (u (g.wrapper w))) :
    Evolves edits onRequest f (g.modifyWrapper w u)
  /-- A wrapper is destroyed on request. -/
  | destroyed {f g : Forest} (h : Evolves edits onRequest f g) (hr : onRequest = true)
      (w : WrapperRef) : Evolves edits onRequest f (g.destroy w)
  /-- The nodes that can be reached from a wrapper are saved, all sorts of things happen, and they
  are put back. -/
  | rolledBack {f g g' : Forest} (h : Evolves edits onRequest f g) (w : WrapperRef) {saved : Saved}
      {s : Store} (hsave : capture (g.wrapper w).node g.store = .ok saved s)
      (hbody : Evolves edits onRequest { g with store := s } g') :
    Evolves edits onRequest f ((g'.modifyStore (·.restore saved)).syncCache w)

namespace Evolves

theorem trans (hfg : f.Evolves edits b g) (hgh : g.Evolves edits b h) : f.Evolves edits b h := by
  induction hgh with
  | refl => exact hfg
  | wrapped _ hr registry ih => exact (ih hfg).wrapped hr registry
  | cells _ hs ih => exact (ih hfg).cells hs
  | asked _ hw key ih => exact (ih hfg).asked hw key
  | added _ hw he hr ih => exact (ih hfg).added hw he hr
  | removed _ w he ih => exact (ih hfg).removed w he
  | tuned _ w hu ih => exact (ih hfg).tuned w hu
  | destroyed _ hr w ih => exact (ih hfg).destroyed hr w
  | rolledBack _ w hsave hbody ih => exact (ih hfg).rolledBack w hsave hbody

/-- A forest that a program can come to evolves into such forests. -/
theorem arises (hfg : f.Evolves edits b g) (hf : f.Arises b) : g.Arises b := by
  induction hfg with
  | refl => exact hf
  | @wrapped _ _ _ r _ registry ih => exact (ih hf).wrap r registry
  | cells _ _ ih => exact (ih hf).store _
  | asked _ hw key ih => exact (ih hf).child hw key
  | @added f g _ w hw key _ r _ ih =>
    have hedited : (g.modifyNodeAt w fun n =>
        { n with children := n.children.insert key r }).Arises b := (ih hf).store _
    exact hedited.renewed hw key r
  | @removed f g _ w key _ ih =>
    have hedited : (g.modifyNodeAt w fun n =>
        { n with children := n.children.erase key }).Arises b := (ih hf).store _
    exact hedited.dropped w key
  | tuned _ w hu ih => exact (ih hf).tuned w hu
  | destroyed _ hr w ih => exact (ih hf).destroyed hr w
  | rolledBack _ w _ _ ih ih' => exact ((ih' ((ih hf).store _)).store _).syncCache w

/-- Whatever happens, wrappers stay on their nodes, and those that are destroyed stay so. -/
theorem ages (hfg : f.Evolves edits b g) (hf : f.Arises b) : Ages f g := by
  induction hfg with
  | refl => exact .refl _
  | wrapped _ _ _ ih => exact (ih hf).trans (.allocWrapper _ _)
  | cells _ hs ih => exact (ih hf).trans (.store fun _ => hs.has)
  | asked _ _ key ih => exact (ih hf).trans (.child _ _ key)
  | added _ _ _ _ ih =>
    exact (((ih hf).trans (.modifyNodeAt _ _ _)).trans (.dropCached _ _ _)).trans (.wrapChild _ _ _ _)
  | removed _ w _ ih => exact ((ih hf).trans (.modifyNodeAt _ _ _)).trans (.dropCached _ _ _)
  | tuned _ w hu ih => exact (ih hf).trans (.modifyWrapper hu.node hu.parent hu.destroyed)
  | destroyed _ _ w ih => exact (ih hf).trans (.destroy _ w)
  | @rolledBack f g g' hg w saved s hsave hbody ih ih' =>
    have harises : (Forest.mk s g.wrappers).Arises b := (hg.arises hf).store s
    have hsaved : Ages g { g with store := s } := .store fun r hr =>
      ((keeps_extends_capture _).ok .refl hsave).1.has hr
    have hrestored : Ages g' (g'.modifyStore (·.restore saved)) := .store fun r hr =>
      (has_restore saved _ _).mpr hr
    have hkept : (g'.modifyStore (·.restore saved)).Kept := ((hbody.arises harises).store _).kept
    exact (((ih hf).trans hsaved).trans (ih' harises)).trans (hrestored.trans (.syncCache hkept w))

end Evolves

end Forest

/-! ### Order in forests that evolve -/

/-- Putting back what was recorded leaves a store in order. -/
theorem Store.Orderly.restore {saved : Saved} (ht : t.Orderly) (hsaved : saved.Records s)
    (hhas : ∀ p ∈ saved, s.Has (.node p.1)) (hs : s.Orderly)
    (hst : ∀ r, s.Has (.node r) → t.Has (.node r) ∧ (s.node r).Akin (t.node r)) :
    (t.restore saved).Orderly ∧ ∀ r, (t.node r).Akin ((t.restore saved).node r) := by
  have hakin : ∀ r, (t.node r).Akin ((t.restore saved).node r) := by
    intro r
    rcases node_restore_cases saved t r with e | ⟨-, n, hn, e⟩ <;> rw [e]
    · exact .refl _
    · exact (hst r (hhas _ hn)).2.symm.trans (hsaved _ hn (hhas _ hn)).1
  refine ⟨ht.of_contents (fun r => has_restore saved t _) (fun r _ => hakin r) fun r role q hq => ?_,
    hakin⟩
  rcases node_restore_cases saved t r with e | ⟨-, n, hn, e⟩ <;> rw [e] at hq
  · exact ht.entries r role q hq
  · rw [(hsaved _ hn (hhas _ hn)).2 role] at hq
    exact (hst q (hs.entries r role q hq)).1

namespace Forest

variable {f g h : Forest} {w : WrapperRef} {edits : NodeRef → String → Prop} {b : Bool}

/-- Whether the store is in order and wrappers stand on nodes that are there. -/
structure Orderly (f : Forest) : Prop where
  store : f.store.Orderly
  has_node : ∀ w, f.store.Has (.node (f.wrapper w).node)

/-- Whether a forest in order has become such a forest, and every node has kept its id, type and
kind. -/
def KeepsOrder (f g : Forest) : Prop := f.Orderly → g.Orderly ∧
  ∀ r, f.store.Has (.node r) → g.store.Has (.node r) ∧ (f.store.node r).Akin (g.store.node r)

namespace KeepsOrder

theorem refl (f : Forest) : KeepsOrder f f := fun hf => ⟨hf, fun _ hr => ⟨hr, .refl _⟩⟩

theorem trans (hfg : KeepsOrder f g) (hgh : KeepsOrder g h) : KeepsOrder f h := by
  intro hf
  obtain ⟨hg, hakin⟩ := hfg hf
  obtain ⟨hh, hakin'⟩ := hgh hg
  refine ⟨hh, fun r hr => ?_⟩
  obtain ⟨hr, e⟩ := hakin r hr
  obtain ⟨hr, e'⟩ := hakin' r hr
  exact ⟨hr, e.trans e'⟩

/-- New wrappers may be made on nodes that are there. -/
theorem of_ages (hfg : Ages f g) (hstore : f.Orderly → g.store.Orderly ∧
      ∀ r, f.store.Has (.node r) → (f.store.node r).Akin (g.store.node r))
    (hnew : ∀ v, f.wrappers.size ≤ v.index → v.index < g.wrappers.size →
      f.Orderly → g.store.Has (.node (g.wrapper v).node)) : KeepsOrder f g := by
  intro hf
  obtain ⟨hg, hakin⟩ := hstore hf
  refine ⟨⟨hg, fun v => ?_⟩, fun r hr => ⟨hfg.has r hr, hakin r hr⟩⟩
  by_cases hold : v.index < f.wrappers.size
  · rw [hfg.node v hold]
    exact hfg.has _ (hf.has_node v)
  · by_cases hmade : v.index < g.wrappers.size
    · exact hnew v (Nat.le_of_not_lt hold) hmade hf
    · rw [wrapper_of_size_le (Nat.le_of_not_lt hmade)]
      exact hg.has_builtin (by decide)

/-- No wrapper need be made. -/
theorem of_made (hfg : Ages f g) (hsize : g.wrappers.size = f.wrappers.size)
    (hstore : f.Orderly → g.store.Orderly ∧
      ∀ r, f.store.Has (.node r) → (f.store.node r).Akin (g.store.node r)) : KeepsOrder f g :=
  of_ages hfg hstore fun _ hle hlt => absurd hlt (by omega)

/-- The store may stay as it is. -/
theorem of_store (hfg : Ages f g) (hstore : g.store = f.store)
    (hnew : ∀ v, f.wrappers.size ≤ v.index → v.index < g.wrappers.size →
      f.Orderly → g.store.Has (.node (g.wrapper v).node)) : KeepsOrder f g :=
  of_ages hfg (fun hf => by rw [hstore]; exact ⟨hf.store, fun _ _ => .refl _⟩) hnew

theorem of_size (hfg : Ages f g) (hstore : g.store = f.store)
    (hsize : g.wrappers.size = f.wrappers.size) : KeepsOrder f g :=
  of_store hfg hstore fun v hle hlt => absurd hlt (by omega)

theorem allocWrapper (f : Forest) (x : Wrapper) (hx : f.Orderly → f.store.Has (.node x.node)) :
    KeepsOrder f (f.allocWrapper x).2 := by
  refine of_store (.allocWrapper f x) rfl fun v hle _ hf => ?_
  rcases f.wrapper_allocWrapper x v with ⟨e, -⟩ | e <;> rw [e]
  exacts [hx hf, hf.has_node v]

theorem modifyWrapper {n : Wrapper → Wrapper} (hfg : Ages f (f.modifyWrapper w n)) :
    KeepsOrder f (f.modifyWrapper w n) := of_size hfg rfl (size_modifyWrapper _ _ _)

theorem modifyNodeAt (f : Forest) (w : WrapperRef) {n : Node → Node}
    (hn : ∀ x : Node, x.Akin (n x)) (hentries : f.Orderly → ∀ role,
      ∀ q ∈ ((n (f.nodeAt w)).entries role).values, f.store.Has (.node q)) :
    KeepsOrder f (f.modifyNodeAt w n) :=
  of_made (.modifyNodeAt f w n) rfl fun hf =>
    ⟨hf.store.modifyNode _ (hn _) (hentries hf), fun r _ => akin_setNode (hn _) r⟩

theorem dropCached (f : Forest) (w : WrapperRef) (key : String) :
    KeepsOrder f (f.dropCached w key) :=
  of_size (.dropCached f w key) (store_dropCached f w key) (size_dropCached f w key)

theorem wrapChild (f : Forest) (w : WrapperRef) (key : String) {r : NodeRef}
    (hr : f.Orderly → f.store.Has (.node r)) : KeepsOrder f (f.wrapChild w key r).2 := by
  rw [wrapChild_snd]
  exact (allocWrapper f _ hr).trans (modifyWrapper (.modifyWrapper rfl rfl rfl))

theorem child (f : Forest) (w : WrapperRef) (key : String) : KeepsOrder f (f.child w key).2 := by
  rcases f.child_cases w key with ⟨-, e⟩ | ⟨_, -, -, e⟩ | ⟨r, hr, e⟩ <;> rw [e]
  · exact refl f
  · exact refl f
  · intro hf
    refine (dropCached f w key).trans (wrapChild _ w key fun _ => ?_) hf
    rw [store_dropCached]
    exact hf.store.entries _ .children r (Entries.mem_values_of_get? hr)

/-- A child that is there may be added or take the place of another. -/
theorem addChild (f : Forest) (w : WrapperRef) (key : String) {r : NodeRef}
    (hr : f.store.Has (.node r)) :
    KeepsOrder f (((f.modifyNodeAt w fun n =>
      { n with children := n.children.insert key r }).dropCached w key).wrapChild w key r).2 := by
  have hedit : KeepsOrder f (f.modifyNodeAt w fun n =>
      { n with children := n.children.insert key r }) :=
    .modifyNodeAt f w (fun _ => ⟨rfl, rfl, rfl⟩) fun hf role q hq => by
      cases role with
      | children =>
        rcases Entries.mem_values_insert hq with rfl | hq
        exacts [hr, hf.store.entries _ .children q hq]
      | metadata => exact hf.store.entries _ .metadata q hq
      | constraints => exact hf.store.entries _ .constraints q hq
  refine hedit.trans ((dropCached _ w key).trans (.wrapChild _ w key fun _ => ?_))
  rw [store_dropCached]
  exact (has_setNode _ _).mpr hr

theorem removeChild (f : Forest) (w : WrapperRef) (key : String) :
    KeepsOrder f ((f.modifyNodeAt w fun n =>
      { n with children := n.children.erase key }).dropCached w key) := by
  have hedit : KeepsOrder f (f.modifyNodeAt w fun n =>
      { n with children := n.children.erase key }) :=
    .modifyNodeAt f w (fun _ => ⟨rfl, rfl, rfl⟩) fun hf role q hq => by
      cases role with
      | children => exact hf.store.entries _ .children q (Entries.mem_values_erase hq)
      | metadata => exact hf.store.entries _ .metadata q hq
      | constraints => exact hf.store.entries _ .constraints q hq
  exact hedit.trans (.dropCached _ w key)

/-- Whatever is done after nodes have been saved, they may be put back. -/
theorem rollBack {saved : Saved} {s : Store}
    (hsave : capture (f.wrapper w).node f.store = .ok saved s)
    (hbody : KeepsOrder { f with store := s } g) (hg : g.Kept) :
    KeepsOrder f ((g.modifyStore (·.restore saved)).syncCache w) := by
  intro hf
  obtain ⟨hext, hrecords⟩ := (keeps_extends_capture _).ok .refl hsave
  have hhas : ∀ p ∈ saved, f.store.Has (.node p.1) :=
    ((keeps_has_capture hf.store (hf.has_node w)).ok .refl hsave).2
  have hsaved : KeepsOrder f { f with store := s } := by
    refine .of_made (.store fun _ => hext.has) rfl fun _ => ⟨?_, fun r hr => ?_⟩
    · exact ((Developing.capture _ _ ⟨hf.store, List.forall_mem_nil _⟩).1.ok
        hsave).orderly hf.store
    · rw [hext.node hr]
      exact .refl _
  obtain ⟨hg', hakin⟩ := (hsaved.trans hbody) hf
  obtain ⟨hback, hakin'⟩ := hg'.store.restore hrecords hhas hf.store hakin
  have hrestored : KeepsOrder g (g.modifyStore (·.restore saved)) :=
    .of_made (.store fun r hr => (has_restore saved _ _).mpr hr) rfl fun _ =>
      ⟨hback, fun r _ => hakin' r⟩
  exact ((hsaved.trans hbody).trans (hrestored.trans (.of_size (.syncCache (hg.store _) w)
    (store_syncCache _ w) (size_syncCache _ w)))) hf

end KeepsOrder

/-- A forest in order evolves into such forests, and every node keeps its id, type and kind. -/
theorem Evolves.keepsOrder (hfg : f.Evolves edits b g) (ha : f.Arises b) : KeepsOrder f g := by
  induction hfg with
  | refl => exact .refl _
  | wrapped _ hr registry ih => exact (ih ha).trans (.allocWrapper _ _ fun _ => hr)
  | cells _ hs ih =>
    exact (ih ha).trans (.of_made (.store fun _ => hs.has) rfl fun hf =>
      ⟨hs.orderly hf.store, fun _ hr => (hs.akin hr).2⟩)
  | asked _ _ key ih => exact (ih ha).trans (.child _ _ key)
  | added _ _ _ hr ih => exact (ih ha).trans (.addChild _ _ _ hr)
  | removed _ w _ ih => exact (ih ha).trans (.removeChild _ w _)
  | tuned _ w hu ih =>
    exact (ih ha).trans (.modifyWrapper (.modifyWrapper hu.node hu.parent hu.destroyed))
  | @destroyed f g _ _ w ih =>
    have hfade := g.fades_destroy w
    exact (ih ha).trans (.of_size (.destroy g w) hfade.store hfade.size)
  | @rolledBack f g _ hg _ _ s hsave hbody ih ih' =>
    have harises : (Forest.mk s g.wrappers).Arises b := (hg.arises ha).store s
    exact (ih ha).trans (.rollBack hsave (ih' harises) (hbody.arises harises).kept)

end Forest

end LiveTree
