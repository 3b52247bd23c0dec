import LiveTree.Proofs.Tree.Announcement
import LiveTree.Proofs.Tree.Lasting
import LiveTree.Proofs.Tree.Mirror

/-! What a read of an attached wrapper goes by. A wrapper is attached if it is met going down from
its root along kept wrappers. Attached wrappers have their ancestors among themselves, so what a
read makes of registries, roots and ways up depends on them only. A forest that retains them, as
they are and keeping each other, is as good to a read as the first one, on any store with the same
nodes. -/

namespace LiveTree

variable {σ : Type}

/-- Whether a registry has standard operators only. -/
def Registry.IsStandard (g : Registry) : Prop := ∀ k op, g.get? k = some op → ∃ o, op = .standard o

namespace Forest

variable {f g : Forest} {top v w c : WrapperRef} {key : String}

/-- Whether a wrapper is met going down from another one along kept wrappers. -/
def Hangs (f : Forest) (top w : WrapperRef) : Prop := ∃ p, f.Along top p w

namespace Hangs

theorem itself (f : Forest) (v : WrapperRef) : f.Hangs v v := ⟨[], .here v⟩

theorem step (h : f.Hangs top w) (hkept : (f.wrapper w).cache.get? key = some c)
    (hnode : (f.nodeAt w).children.get? key = some (f.wrapper c).node) : f.Hangs top c :=
  have ⟨_, h⟩ := h
  ⟨_, h.step hkept hnode⟩

theorem made (h : f.Hangs top w) (ho : f.Ordered) (htop : top.index < f.wrappers.size) :
    w.index < f.wrappers.size :=
  have ⟨_, h⟩ := h
  h.made ho htop

theorem lasts (h : f.Hangs top w) (hfg : Lasts top f g) : g.Hangs top w :=
  have ⟨p, h⟩ := h
  ⟨p, hfg.along p w h⟩

theorem unmoved (h : f.Hangs top w) (hfg : Lasts top f g) : f.Unmoved g w :=
  have ⟨p, h⟩ := h
  hfg.unmoved p w h

/-- A wrapper that hangs from another one is it, or is kept by one that hangs from it. -/
theorem cases (h : f.Hangs top w) : w = top ∨ ∃ u key, f.Hangs top u ∧
    (f.wrapper u).cache.get? key = some w ∧
    (f.nodeAt u).children.get? key = some (f.wrapper w).node := by
  obtain ⟨p, h⟩ := h
  rcases List.eq_nil_or_concat p with rfl | ⟨p, key, rfl⟩
  · cases h
    exact .inl rfl
  · rw [List.concat_eq_append] at h
    obtain ⟨u, hu, hkept, hnode⟩ := h.last_step
    exact .inr ⟨u, key, ⟨p, hu⟩, hkept, hnode⟩

/-- What holds of the upper wrapper, and with each wrapper of what it keeps, holds of all that
hang. -/
theorem induction {P : WrapperRef → Prop} (h : f.Hangs top w) (htop : P top)
    (hstep : ∀ u key c, P u → (f.wrapper u).cache.get? key = some c →
      (f.nodeAt u).children.get? key = some (f.wrapper c).node → P c) : P w := by
  obtain ⟨p, h⟩ := h
  have hall : ∀ u p w, P u → f.Along u p w → P w := by
    intro u p w hu h
    induction h with
    | here => exact hu
    | child hkept hnode _ ih => exact ih (hstep _ _ _ hu hkept hnode)
  exact hall top p w htop h

/-- The parent of a wrapper that hangs from a topmost one hangs from it, too. -/
theorem parent (h : f.Hangs top w) (hk : f.Kept) (htop : (f.wrapper top).parent = none)
    {u : WrapperRef} (hu : (f.wrapper w).parent = some u) : f.Hangs top u := by
  rcases h.cases with rfl | ⟨u', key, hu', hkept, -⟩
  · rw [htop] at hu
    cases hu
  · cases hlive : (f.wrapper w).destroyed with
    | true =>
      rw [hk.alone w hlive] at hu
      cases hu
    | false =>
      obtain rfl := Option.some.inj (hu.symm.trans (hk.place u' key w hkept hlive).1)
      exact hu'

end Hangs

/-- The root of a wrapper is one of its ancestors or the wrapper itself. -/
theorem root_mem (f : Forest) (w : WrapperRef) : f.root w ∈ w :: f.ancestors w := by
  rw [root]
  cases h : (f.ancestors w).getLast? with
  | none => exact List.mem_cons_self
  | some a => exact List.mem_cons_of_mem w (List.mem_of_getLast? h)

/-- Whether a wrapper is met going down from a wrapper without parent. -/
def Attached (f : Forest) (w : WrapperRef) : Prop :=
  ∃ top : WrapperRef, top.index < f.wrappers.size ∧ (f.wrapper top).parent = none ∧ f.Hangs top w

namespace Attached

theorem made (h : f.Attached w) (ho : f.Ordered) : w.index < f.wrappers.size :=
  have ⟨_, htop, _, hw⟩ := h
  hw.made ho htop

theorem parent (h : f.Attached w) (hk : f.Kept) {u : WrapperRef}
    (hu : (f.wrapper w).parent = some u) : f.Attached u :=
  have ⟨top, htop, hparent, hw⟩ := h
  ⟨top, htop, hparent, hw.parent hk hparent hu⟩

theorem ancestors (h : f.Attached w) (hk : f.Kept) : ∀ a ∈ w :: f.ancestors w, f.Attached a :=
  List.forall_mem_cons.mpr ⟨h, (ancestorsTo_congr (fun _ _ => rfl)
    (fun _ _ ha hp => ha.parent hk hp) h).2⟩

end Attached

/-- A store that keeps the children of all nodes holds all ways down that go by them. -/
theorem Lasts.of_keepsChildren (hw : g.wrappers = f.wrappers) (hs : f.store.KeepsChildren g.store) :
    Lasts top f g := by
  have hsame : ∀ v, g.wrapper v = f.wrapper v := fun v => by rw [wrapper, hw, wrapper]
  refine ⟨fun p c h => ?_, fun p c _ => ⟨_, hsame c⟩⟩
  induction h with
  | here => exact .here _
  | @child u c _ key _ hkept hnode _ ih =>
    refine .child ((hsame u).symm ▸ hkept) ?_ ih
    have hhas : f.store.Has (.node (f.wrapper u).node) := by
      by_contra hnot
      rw [nodeAt, f.store.node_of_not_has hnot] at hnode
      cases hnode
    rw [nodeAt, hsame, hsame, (hs _ hhas).2]
    exact hnode

theorem Lasts.of_extends (hw : g.wrappers = f.wrappers) (hs : f.store.Extends g.store) :
    Lasts top f g := .of_keepsChildren hw hs.keepsChildren

/-- Forgetting a wrapper leaves every wrapper its node, its registry and what it holds back. -/
theorem dropCached_leaves (f : Forest) (w : WrapperRef) (key : String) (v : WrapperRef) :
    ((f.dropCached w key).wrapper v).node = (f.wrapper v).node ∧
      ((f.dropCached w key).wrapper v).registry = (f.wrapper v).registry ∧
      ((f.dropCached w key).wrapper v).batched = (f.wrapper v).batched := by
  cases hc : (f.wrapper w).cache.get? key with
  | none =>
    rw [dropCached_of_none hc]
    exact ⟨rfl, rfl, rfl⟩
  | some d =>
    rw [dropCached_eq hc]
    obtain ⟨cache, hforget⟩ := f.unmoved_forget w key v
    rcases ((f.forget w key).fades_destroy d).detached_or v with e | e <;> rw [e, hforget] <;>
      exact ⟨rfl, rfl, rfl⟩

/-- So does asking for a child, as far as wrappers have been made. -/
theorem settings_child (f : Forest) (hw : w.index < f.wrappers.size) (key : String)
    (hv : v.index < f.wrappers.size) :
    ((f.child w key).2.wrapper v).registry = (f.wrapper v).registry ∧
      ((f.child w key).2.wrapper v).batched = (f.wrapper v).batched := by
  rcases f.child_cases w key with ⟨-, e⟩ | ⟨c, -, -, e⟩ | ⟨r, -, e⟩ <;> rw [e]
  · exact ⟨rfl, rfl⟩
  · exact ⟨rfl, rfl⟩
  have hsize := f.size_dropCached w key
  obtain ⟨cache, e⟩ := wrapper_wrapChild_old (v := v) key r (hsize.symm ▸ hw)
    (Nat.ne_of_lt (hsize.symm ▸ hv))
  rw [e]
  exact (f.dropCached_leaves w key v).2

/-- Where no wrapper was, asking for a child makes a wrapper of the child, or none. -/
theorem fresh_child (f : Forest) (hw : w.index < f.wrappers.size) (key : String)
    (hv : f.wrappers.size ≤ v.index) : (f.child w key).2.wrapper v = default ∨
      ∃ r, (f.child w key).2.wrapper v = childWrapper w key r := by
  rcases f.child_cases w key with ⟨-, e⟩ | ⟨c, -, -, e⟩ | ⟨r, -, e⟩ <;> rw [e]
  · exact .inl (wrapper_of_size_le hv)
  · exact .inl (wrapper_of_size_le hv)
  have hsize := f.size_dropCached w key
  by_cases hnew : v.index = (f.dropCached w key).wrappers.size
  · obtain rfl : v = ⟨(f.dropCached w key).wrappers.size⟩ := by cases v; exact congrArg _ hnew
    exact .inr ⟨r, wrapper_wrapChild_new (hsize.symm ▸ hw)⟩
  · refine .inl (wrapper_of_size_le ?_)
    rw [size_wrapChild]
    omega

/-- A wrapper that is made for a child has no registry of its own. -/
theorem registry_child (f : Forest) (hw : w.index < f.wrappers.size) (key : String)
    (hv : f.wrappers.size ≤ v.index) : ((f.child w key).2.wrapper v).registry = none := by
  rcases f.fresh_child hw key hv with e | ⟨r, e⟩ <;> rw [e] <;> rfl

/-- The wrapper that is given for a child is kept and stands for the child's node. -/
theorem child_keeps (f : Forest) (hw : w.index < f.wrappers.size) (key : String) :
    (∀ c, (f.child w key).1 = some c →
      ((f.child w key).2.wrapper w).cache.get? key = some c ∧
        (f.nodeAt w).children.get? key = some ((f.child w key).2.wrapper c).node) ∧
      ((f.child w key).1 = none → (f.nodeAt w).children.get? key = none) := by
  rcases f.child_cases w key with ⟨hnone, e⟩ | ⟨c, hkept, hnode, e⟩ | ⟨r, hr, e⟩ <;> rw [e]
  · exact ⟨fun _ hc => (by cases hc), fun _ => hnone⟩
  · refine ⟨?_, fun hc => (by cases hc)⟩
    rintro _ ⟨⟩
    exact ⟨hkept, hnode⟩
  · refine ⟨?_, fun hc => (by cases hc)⟩
    rintro _ ⟨⟩
    have hw' : w.index < (f.dropCached w key).wrappers.size := by rwa [size_dropCached]
    refine ⟨?_, ?_⟩
    · rw [wrapper_wrapChild_self hw']
      exact Entries.get?_insert_self _ _ _
    · rw [wrapper_wrapChild_new hw', hr]
      rfl

/-- Whether all ways down from wrappers without parent last in another forest, and no wrapper gets
another registry or holds back other changes than before. -/
structure Sustains (f g : Forest) : Prop where
  size : f.wrappers.size ≤ g.wrappers.size
  lasts {top : WrapperRef} : top.index < f.wrappers.size → (f.wrapper top).parent = none →
    Lasts top f g
  settings {v : WrapperRef} : v.index < f.wrappers.size →
    (g.wrapper v).registry = (f.wrapper v).registry ∧ (g.wrapper v).batched = (f.wrapper v).batched

namespace Sustains

theorem refl (f : Forest) : Sustains f f :=
  ⟨Nat.le_refl _, fun _ _ => .refl _ f, fun _ => ⟨rfl, rfl⟩⟩

theorem unmoved (h : Sustains f g) (hw : f.Attached w) : f.Unmoved g w :=
  have ⟨_, htop, hparent, hw⟩ := hw
  hw.unmoved (h.lasts htop hparent)

theorem attached (h : Sustains f g) (hw : f.Attached w) : g.Attached w := by
  obtain ⟨top, htop, hparent, hw⟩ := hw
  have hlasts := h.lasts htop hparent
  refine ⟨top, Nat.lt_of_lt_of_le htop h.size, ?_, hw.lasts hlasts⟩
  rw [((Hangs.itself f top).unmoved hlasts).parent, hparent]

theorem trans {e : Forest} (hef : Sustains e f) (hfg : Sustains f g) : Sustains e g where
  size := Nat.le_trans hef.size hfg.size
  lasts {top} htop hparent := by
    have hlasts := hef.lasts htop hparent
    refine hlasts.trans (hfg.lasts (Nat.lt_of_lt_of_le htop hef.size) ?_)
    rw [((Hangs.itself e top).unmoved hlasts).parent, hparent]
  settings hv :=
    have hfirst := hef.settings hv
    have hsecond := hfg.settings (Nat.lt_of_lt_of_le hv hef.size)
    ⟨hsecond.1.trans hfirst.1, hsecond.2.trans hfirst.2⟩

/-- The cells of a later store leave all ways down as they are. -/
theorem of_extends (hw : g.wrappers = f.wrappers) (hs : f.store.Extends g.store) :
    Sustains f g :=
  have hsame : ∀ v, g.wrapper v = f.wrapper v := fun v => by rw [wrapper, hw, wrapper]
  ⟨Nat.le_of_eq (by rw [hw]), fun _ _ => .of_extends hw hs,
    fun {v} _ => by rw [hsame v]; exact ⟨rfl, rfl⟩⟩

/-- So does asking for a child, anywhere, as long as no wrapper has been destroyed on request. -/
theorem child (hp : f.Placed) (hl : f.Lively) (hv : v.index < f.wrappers.size) (key : String) :
    Sustains f (f.child v key).2 where
  size := f.size_le_child v key
  lasts {top} htop hparent := by
    refine .child hp htop (.inl fun u k hu => ?_) hv key
    rw [(hp.place u k top hu (hl u k top hu)).1] at hparent
    cases hparent
  settings := f.settings_child hv key

/-- And so does wrapping a node anew. -/
theorem allocWrapper (ho : f.Ordered) (r : NodeRef) (registry : Option Registry) :
    Sustains f (f.allocWrapper (.ofNode r registry)).2 where
  size := by simp [Forest.allocWrapper]
  lasts {top} htop _ := by
    have hold : ∀ c : WrapperRef, c.index < f.wrappers.size →
        (f.allocWrapper (.ofNode r registry)).2.wrapper c = f.wrapper c := fun c hc =>
      f.wrapper_allocWrapper_of_ne _ (Nat.ne_of_lt hc)
    refine .of_steps (S := fun c => c.index < f.wrappers.size) rfl
      (fun c hc => ⟨_, hold c hc⟩) htop fun w k c hw hkept _ => ?_
    exact ⟨(hold w hw).symm ▸ hkept, ho.cached_lt w c (Entries.mem_values_of_get? hkept)⟩
  settings {v} hv := by
    rw [f.wrapper_allocWrapper_of_ne _ (Nat.ne_of_lt hv)]
    exact ⟨rfl, rfl⟩

end Sustains

/-- Whether the attached wrappers of a forest are there in another one, the same except for what
they keep, and keep each other as they did. -/
structure Retains (f g : Forest) : Prop where
  unmoved {w : WrapperRef} : f.Attached w → f.Unmoved g w
  kept {w c : WrapperRef} {key : String} : f.Attached w → (f.wrapper w).cache.get? key = some c →
    (f.nodeAt w).children.get? key = some (f.wrapper c).node → (g.wrapper w).cache.get? key = some c

namespace Retains

theorem of_sustains (h : Sustains f g) : Retains f g where
  unmoved := h.unmoved
  kept := by
    rintro w c key ⟨top, htop, hparent, p, hw⟩ hkept hnode
    have hlasts := h.lasts htop hparent
    obtain ⟨u, hu, hc, -⟩ := (hlasts.along _ _ (hw.step hkept hnode)).last_step
    rwa [(hlasts.along _ _ hw).unique hu] at hc

/-- What a later forest retains is retained of an earlier one. -/
theorem earlier {e : Forest} (hef : Sustains e f) (h : Retains f g) : Retains e g where
  unmoved hw := (hef.unmoved hw).trans (h.unmoved (hef.attached hw))
  kept := by
    rintro w c key ⟨top, htop, hparent, p, hw⟩ hkept hnode
    have hlasts := hef.lasts htop hparent
    obtain ⟨u, hu, hc, hnode'⟩ := (hlasts.along _ _ (hw.step hkept hnode)).last_step
    obtain rfl := (hlasts.along _ _ hw).unique hu
    exact h.kept (hef.attached ⟨top, htop, hparent, p, hw⟩) hc hnode'

variable (h : Retains f g) (hk : f.Kept) (hw : f.Attached w)

include h hk hw

theorem ancestors_eq : g.ancestors w = f.ancestors w :=
  (ancestorsTo_congr (P := f.Attached) (fun _ ha => (h.unmoved ha).parent)
    (fun _ _ ha hp => ha.parent hk hp) hw).1

theorem registry_eq : g.registry w = f.registry w := by
  rw [registry, registry, h.ancestors_eq hk hw]
  have hall := hw.ancestors hk
  generalize w :: f.ancestors w = l at hall
  induction l with
  | nil => rfl
  | cons a rest ih =>
    obtain ⟨ha, hrest⟩ := List.forall_mem_cons.mp hall
    rw [List.findSome?_cons, List.findSome?_cons, (h.unmoved ha).registry, ih hrest]

theorem root_eq : g.root w = f.root w := by rw [root, root, h.ancestors_eq hk hw]

theorem lookup_eq (r : NodeRef) : g.lookup w r = f.lookup w r := by
  have hparent : ∀ a, f.Attached a →
      (g.wrapper a).parent.map (fun p => (g.wrapper p).node) =
        (f.wrapper a).parent.map fun p => (f.wrapper p).node := by
    intro a ha
    rw [(h.unmoved ha).parent]
    cases hp : (f.wrapper a).parent with
    | none => rfl
    | some p => exact congrArg some (h.unmoved (ha.parent hk hp)).node
  rw [lookup, lookup, h.ancestors_eq hk hw]
  refine congrArg (Lookup.mk · (some r)) (List.map_congr_left fun a ha => ?_)
  have ha := hw.ancestors hk a ha
  rw [(h.unmoved ha).node, hparent a ha]

end Retains

end Forest

end LiveTree
