import LiveTree.Proofs.Tree.Evolving

/-! Trails: ways down along kept wrappers on which some entries are left alone. In a forest that
evolves without wrappers destroyed on request, a trail from a wrapper without a parent stays as it
is: whatever is added, removed and put back elsewhere, the same wrappers go on to be kept under the
same keys, and their nodes go on to hold one another. -/

namespace LiveTree

open Store

namespace Forest

variable {f g h : Forest} {edits : NodeRef → String → Prop} {top v w c : WrapperRef}
variable {key : String} {p : Path} {s : Store}

/-- Whether going down from a wrapper along keys meets kept wrappers only, which are up to date, by
entries that are not among some. -/
inductive Trail (edits : NodeRef → String → Prop) (f : Forest) (top : WrapperRef) :
    Path → WrapperRef → Prop
  | here : Trail edits f top [] top
  | step {p : Path} {v c : WrapperRef} {key : String} (h : Trail edits f top p v)
      (hkept : (f.wrapper v).cache.get? key = some c)
      (hnode : (f.nodeAt v).children.get? key = some (f.wrapper c).node)
      (hspared : ¬ edits (f.wrapper v).node key) : Trail edits f top (p ++ [key]) c

namespace Trail

theorem along (h : f.Trail edits top p c) : f.Along top p c := by
  induction h with
  | here => exact .here top
  | step _ hkept hnode _ ih => exact ih.step hkept hnode

/-- A way down is a trail if its entries are not among the given ones. -/
theorem of_along (h : f.Along top p c) (hspared : ∀ p₁ key p₂ v, p = p₁ ++ key :: p₂ →
    f.Along top p₁ v → ¬ edits (f.wrapper v).node key) : f.Trail edits top p c := by
  induction p using List.reverseRecOn generalizing c with
  | nil =>
    cases h
    exact .here
  | append_singleton p key ih =>
    obtain ⟨v, hv, hkept, hnode⟩ := h.last_step
    refine .step (ih hv fun p₁ k p₂ u e => hspared p₁ k (p₂ ++ [key]) u ?_) hkept hnode
      (hspared p key [] v rfl hv)
    rw [e, List.append_assoc, List.cons_append]

/-- A trail stays if each of its steps does. -/
theorem mono (h : f.Trail edits top p c)
    (hstep : ∀ p v key c, f.Trail edits top p v → (f.wrapper v).cache.get? key = some c →
      (f.nodeAt v).children.get? key = some (f.wrapper c).node → ¬ edits (f.wrapper v).node key →
      (g.wrapper v).node = (f.wrapper v).node ∧ (g.wrapper v).cache.get? key = some c ∧
        (g.nodeAt v).children.get? key = some (g.wrapper c).node) : g.Trail edits top p c := by
  induction h with
  | here => exact .here
  | step h hkept hnode hspared ih =>
    obtain ⟨e, hkept', hnode'⟩ := hstep _ _ _ _ h hkept hnode hspared
    exact .step ih hkept' hnode' (e ▸ hspared)

/-- What leaves all ways down from the top leaves trails. -/
theorem lasts (h : f.Trail edits top p c) (hfg : Lasts top f g) : g.Trail edits top p c := by
  induction h with
  | here => exact .here
  | @step p v c key h hkept hnode hspared ih =>
    obtain ⟨v', hv', hkept', hnode'⟩ := (hfg.along _ _ (h.along.step hkept hnode)).last_step
    obtain rfl := ih.along.unique hv'
    refine .step ih hkept' hnode' ?_
    rwa [(hfg.unmoved p _ h.along).node]

end Trail

/-- Whether the trails from a wrapper are still there in another forest, and it is destroyed there
only if it was before. -/
structure Endures (edits : NodeRef → String → Prop) (top : WrapperRef) (f g : Forest) : Prop where
  trail : ∀ p c, f.Trail edits top p c → g.Trail edits top p c
  destroyed : (g.wrapper top).destroyed = (f.wrapper top).destroyed

namespace Endures

theorem refl (f : Forest) : Endures edits top f f := ⟨fun _ _ h => h, rfl⟩

theorem trans (hfg : Endures edits top f g) (hgh : Endures edits top g h) :
    Endures edits top f h :=
  ⟨fun p c hc => hgh.trail p c (hfg.trail p c hc), hgh.destroyed.trans hfg.destroyed⟩

theorem of_lasts (hfg : Lasts top f g) : Endures edits top f g :=
  ⟨fun _ _ h => h.lasts hfg, (hfg.unmoved [] top (.here top)).destroyed⟩

/-- The store may change, except for the entries on trails. -/
theorem store (hs : ∀ r key q, ¬ edits r key →
    (f.store.node r).children.get? key = some q → (s.node r).children.get? key = some q) :
    Endures edits top f { f with store := s } :=
  ⟨fun _ _ h => h.mono fun _ _ _ _ _ hkept hnode hspared => ⟨rfl, hkept, hs _ _ _ hspared hnode⟩,
    rfl⟩

theorem allocWrapper (hf : f.Ordered) (hmade : top.index < f.wrappers.size) (x : Wrapper) :
    Endures edits top f (f.allocWrapper x).2 := by
  have hsame : ∀ v, v.index < f.wrappers.size → (f.allocWrapper x).2.wrapper v = f.wrapper v :=
    fun v hv => f.wrapper_allocWrapper_of_ne x (Nat.ne_of_lt hv)
  refine ⟨fun _ _ h => h.mono fun _ v key c _ hkept hnode _ => ?_, by rw [hsame top hmade]⟩
  have hv := lt_size_of_mem_cache (Entries.mem_values_of_get? hkept)
  have hc := hf.cached_lt v c (Entries.mem_values_of_get? hkept)
  rw [nodeAt, hsame v hv, hsame c hc]
  exact ⟨rfl, hkept, hnode⟩

theorem modifyWrapper {u : Wrapper → Wrapper}
    (hu : (f.wrapper w).SamePlace (u (f.wrapper w))) :
    Endures edits top f (f.modifyWrapper w u) := by
  have hsame := samePlace_modifyWrapper hu
  refine ⟨fun _ _ h => h.mono fun _ v key c _ hkept hnode _ => ?_, (hsame top).destroyed⟩
  rw [nodeAt, (hsame v).node, (hsame v).cache, (hsame c).node]
  exact ⟨rfl, hkept, hnode⟩

end Endures

/-- Without wrappers destroyed on request, one without a parent is kept nowhere. -/
theorem Arises.unkept (hf : f.Arises false) (htop : (f.wrapper top).parent = none) (u : WrapperRef)
    (k : String) : (f.wrapper u).cache.get? k ≠ some top := by
  intro hkept
  have hparent := (hf.kept.place u k top hkept (hf.lively u k top hkept)).1
  rw [htop] at hparent
  cases hparent

/-- Bringing kept wrappers back in line leaves all ways down from a wrapper that is kept nowhere. -/
theorem Lasts.syncCache (hf : f.Placed) (htop : ∀ u k, (f.wrapper u).cache.get? k ≠ some top)
    (w : WrapperRef) : Lasts top f (f.syncCache w) := by
  refine (syncCacheTo_induction (P := fun g => g.Placed ∧ Lasts top f g ∧
    ∀ u k, (g.wrapper u).cache.get? k ≠ some top) _ w hf.toKept ⟨hf, .refl top f, htop⟩
    fun g v key _ hg hstale => ⟨hg.1.dropCached v key, ?_, fun u k hkept => ?_⟩).2.1
  · exact hg.2.1.trans (.dropCached hg.1 (.inl hg.2.2) hstale)
  · exact hg.2.2 u k ((g.dropCached_loses v key u).2 k top hkept)

/-! ### Entries that change -/

/-- Which wrappers are destroyed has nothing to do with the store. -/
theorem destroyTo_store (n : ℕ) (f : Forest) (s : Store) (w : WrapperRef) :
    destroyTo n w { f with store := s } = { destroyTo n w f with store := s } :=
  destroyTo_comm (φ := fun g => { g with store := s }) (fun _ _ => rfl) (fun _ _ => rfl) n w f

theorem dropCached_store (f : Forest) (s : Store) (w : WrapperRef) (key : String) :
    Forest.dropCached { f with store := s } w key = { f.dropCached w key with store := s } := by
  cases hd : (f.wrapper w).cache.get? key with
  | none => rw [dropCached_of_none hd, dropCached_of_none (f := { f with store := s }) hd]
  | some d =>
    rw [dropCached_eq hd, dropCached_eq (f := { f with store := s }) hd]
    exact destroyTo_store _ (f.forget w key) s d

end Forest

/-- A node that has a child is there. -/
theorem Store.has_of_child {s : Store} {r q : NodeRef} {k : String}
    (h : (s.node r).children.get? k = some q) : s.Has (.node r) := by
  by_contra hnot
  rw [node_of_not_has s hnot] at h
  cases h

/-- Changing one entry of a node's children leaves all other children. -/
theorem Store.get?_children_modifyNode {s : Store} {r q : NodeRef} {key k : String}
    {h : Entries NodeRef → Entries NodeRef} (hh : ∀ m, k ≠ key → (h m).get? k = m.get? k)
    (hne : ¬ (q = r ∧ k = key)) :
    ((s.modifyNode r fun n => { n with children := h n.children }).node q).children.get? k =
      (s.node q).children.get? k := by
  by_cases e : q = r
  · subst e
    by_cases hq : s.Has (.node q)
    · rw [Store.modifyNode, node_setNode_self _ _ _ hq]
      exact hh _ fun ek => hne ⟨rfl, ek⟩
    · rw [Store.modifyNode, agree_setNode_of_not_has hq]
  · rw [Store.modifyNode, node_setNode_of_ne _ _ e]

namespace Forest

variable {f g : Forest} {edits : NodeRef → String → Prop} {top w : WrapperRef} {key : String}

theorem Placed.store (h : f.Placed) (s : Store) : Placed { f with store := s } :=
  { h.toKept.store s with once := h.once, held := h.held }

namespace Endures

/-- Removing an entry and forgetting the wrapper leaves the trails that spare the entry. -/
theorem removed (hf : f.Placed) (htop : ∀ u k, (f.wrapper u).cache.get? k ≠ some top)
    (he : edits (f.wrapper w).node key) :
    Endures edits top f ((f.modifyNodeAt w fun x =>
      { x with children := x.children.erase key }).dropCached w key) := by
  have herased : Endures edits top f (f.modifyNodeAt w fun x =>
      { x with children := x.children.erase key }) := by
    refine .store fun r k q hspared hq => ?_
    rw [get?_children_modifyNode fun m hk => Entries.get?_erase_of_ne m hk, hq]
    rintro ⟨rfl, rfl⟩
    exact hspared he
  refine herased.trans (.of_lasts (.dropCached (hf.store _) (.inl htop) fun d _ hd => ?_))
  have hnone : ((f.modifyNodeAt w fun x =>
      { x with children := x.children.erase key }).nodeAt w).children.get? key = none := by
    by_cases hw : f.store.Has (.node (f.wrapper w).node)
    · exact (congrArg (fun n : Node => n.children.get? key) (node_setNode_self _ _ _ hw)).trans
        (Entries.get?_erase_self (f.nodeAt w).children key)
    · refine (congrArg (fun n : Node => n.children.get? key)
        (agree_setNode_of_not_has hw)).trans ?_
      rw [node_of_not_has _ hw]
      rfl
  rw [hnone] at hd
  cases hd

/-- So does adding one: with regard to the wrappers it is as if the entry were removed first. -/
theorem added (hf : f.Placed) (hmade : top.index < f.wrappers.size)
    (htop : ∀ u k, (f.wrapper u).cache.get? k ≠ some top) (hw : w.index < f.wrappers.size)
    (he : edits (f.wrapper w).node key) (r : NodeRef) :
    Endures edits top f (((f.modifyNodeAt w fun x =>
      { x with children := x.children.insert key r }).dropCached w key).wrapChild w key r).2 := by
  have hdropped : Endures edits top f ((f.modifyNodeAt w fun x =>
      { x with children := x.children.insert key r }).dropCached w key) := by
    have e := dropCached_store (f.modifyNodeAt w fun x =>
      { x with children := x.children.erase key }) (f.modifyNodeAt w fun x =>
      { x with children := x.children.insert key r }).store w key
    refine (removed hf htop he).trans (e ▸ .store fun q k a hspared ha => ?_)
    have hne : ¬ (q = (f.wrapper w).node ∧ k = key) := by
      rintro ⟨rfl, rfl⟩
      exact hspared he
    rw [store_dropCached] at ha
    rw [← ha]
    exact (get?_children_modifyNode (fun m hk => Entries.get?_insert_of_ne m r hk) hne).trans
      (get?_children_modifyNode (fun m hk => Entries.get?_erase_of_ne m hk) hne).symm
  refine hdropped.trans (.of_lasts (.wrapChild ((hf.store _).dropCached w key).toOrdered ?_ ?_
    (get?_dropCached_self _ w key) r)) <;> rw [size_dropCached]
  exacts [hmade, hw]

/-- Putting back what was saved when trails were there leaves those that are still there. -/
theorem restore {saved : Saved} (hfg : Endures edits top f g) (hages : Ages f g) (hf : f.Ordered)
    (hsaved : saved.Records f.store) :
    Endures edits top f (g.modifyStore (·.restore saved)) := by
  refine ⟨fun p c h => ?_, hfg.destroyed⟩
  induction h with
  | here => exact .here
  | @step p v c key h hkept hnode hspared ih =>
    have hv := hages.node v (lt_size_of_mem_cache (Entries.mem_values_of_get? hkept))
    have hc := hages.node c (hf.cached_lt v c (Entries.mem_values_of_get? hkept))
    obtain ⟨v', hv', hkept', hnode'⟩ :=
      (hfg.trail _ _ (h.step hkept hnode hspared)).along.last_step
    obtain rfl := (hfg.trail _ _ h).along.unique hv'
    refine .step ih hkept' ?_ (by rwa [← hv] at hspared)
    show ((g.store.restore saved).node (g.wrapper v').node).children.get? key = _
    rcases node_restore_cases saved g.store (g.wrapper v').node with e | ⟨-, n, hn, e⟩ <;> rw [e]
    · exact hnode'
    · rw [hv] at hn
      show n.children.get? key = some (g.wrapper c).node
      rw [hc, ← hnode]
      exact congrArg (·.get? key) ((hsaved _ hn (has_of_child hnode)).2 .children)

end Endures

/-- A wrapper without a parent stays one. -/
theorem Evolves.stays_root {b : Bool} (hfg : f.Evolves edits b g) (hf : f.Arises b)
    (hmade : top.index < f.wrappers.size) (hroot : (f.wrapper top).parent = none) :
    top.index < g.wrappers.size ∧ (g.wrapper top).parent = none := by
  have hages := hfg.ages hf
  refine ⟨Nat.lt_of_lt_of_le hmade hages.size_le, ?_⟩
  rcases hages.parent top hmade with e | e <;> rw [e]
  exact hroot

/-- As long as no wrapper is destroyed on request, the trails from a wrapper without a parent
endure. -/
theorem Evolves.endures (hfg : f.Evolves edits false g) (hf : f.Arises false)
    (hmade : top.index < f.wrappers.size) (hroot : (f.wrapper top).parent = none) :
    Endures edits top f g := by
  induction hfg with
  | refl => exact .refl _
  | wrapped hg _ _ ih =>
    obtain ⟨hmade', -⟩ := hg.stays_root hf hmade hroot
    exact (ih hf hmade hroot).trans (.allocWrapper (hg.arises hf).kept.toOrdered hmade' _)
  | cells hg hs ih =>
    refine (ih hf hmade hroot).trans (.store fun r k q _ hq => ?_)
    rwa [(hs.keepsChildren r (has_of_child hq)).2]
  | asked hg hw key ih =>
    obtain ⟨hmade', hroot'⟩ := hg.stays_root hf hmade hroot
    have hg := hg.arises hf
    exact (ih hf hmade hroot).trans
      (.of_lasts (.child hg.placed hmade' (.inl (hg.unkept hroot')) hw key))
  | added hg hw he hr ih =>
    obtain ⟨hmade', hroot'⟩ := hg.stays_root hf hmade hroot
    have hg := hg.arises hf
    exact (ih hf hmade hroot).trans (.added hg.placed hmade' (hg.unkept hroot') hw he _)
  | removed hg w he ih =>
    obtain ⟨-, hroot'⟩ := hg.stays_root hf hmade hroot
    have hg := hg.arises hf
    exact (ih hf hmade hroot).trans (.removed hg.placed (hg.unkept hroot') he)
  | tuned hg w hu ih => exact (ih hf hmade hroot).trans (.modifyWrapper hu)
  | destroyed _ hrequest => cases hrequest
  | @rolledBack f g g' hg w saved s hsave hbody ih ih' =>
    obtain ⟨hmade', hroot'⟩ := hg.stays_root hf hmade hroot
    have hext := ((keeps_extends_capture _).ok .refl hsave).1
    have hopen : Endures edits top g { g with store := s } :=
      .store fun r k q _ hq => by rwa [hext.node (has_of_child hq)]
    have hopened : (Forest.mk s g.wrappers).Arises false := (hg.arises hf).store s
    obtain ⟨-, hroot''⟩ := hbody.stays_root hopened hmade' hroot'
    have hages : Ages g g' := Ages.trans (g := { g with store := s })
      (.store fun _ => hext.has) (hbody.ages hopened)
    have hrestored := (hopen.trans (ih' hopened hmade' hroot')).restore hages
      (hg.arises hf).kept.toOrdered ((keeps_extends_capture _).ok .refl hsave).2
    have hlast : (g'.modifyStore (·.restore saved)).Arises false := (hbody.arises hopened).store _
    exact (ih hf hmade hroot).trans (hrestored.trans
      (.of_lasts (.syncCache hlast.placed (hlast.unkept hroot'') w)))

end Forest

end LiveTree
