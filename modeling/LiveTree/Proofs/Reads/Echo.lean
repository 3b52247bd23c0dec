import LiveTree.Proofs.Eval.Holder
import LiveTree.Proofs.Form.Alike
import LiveTree.Proofs.Reads.Retaining
import LiveTree.Proofs.Runs.Paths
import LiveTree.Proofs.Tree.ByPath
import LiveTree.Tree.Read

/-! Reads that are done again. A read is run a first time; then it is run in another world, which
has retained the attached wrappers as they were at the end of the first run, on a store that
corresponds to the first. The second run asks for the same children, finds their kept wrappers, so
that it leaves the wrappers as they are, and comes to what corresponds to the first result. The
rules here carry this through the steps of a read. -/

namespace LiveTree

variable {σ α β γ δ : Type}

theorem TreeM.eval_done {m : EvalM α} {x : World σ} {a : α} {s : Store}
    (h : m x.forest.store = .done a s) : TreeM.eval m x = .ok a (x.withStore s) := by
  rw [TreeM.eval, EvalM.run, h]
  rfl

theorem TreeM.eval_failed {m : EvalM α} {x : World σ} {e : Fault} {s : Store}
    (h : m x.forest.store = .failed e (.ended s)) : TreeM.eval m x = .error e (x.withStore s) := by
  rw [TreeM.eval, EvalM.run, h]
  rfl

namespace Correspondence

/-- Whether a node's type and all that it holds belong to themselves. -/
def KnowsNode (C : Correspondence) (s : Store) (n : Node) : Prop :=
  ∀ p ∈ Value.node n.type :: n.parts, C.values s p p

namespace KnowsNode

variable {C : Correspondence} {s : Store} {n : Node} (h : C.KnowsNode s n)

include h

theorem type : C.Knows s n.type := h _ List.mem_cons_self

theorem value : C.values s n.value n.value := h _ (List.mem_cons_of_mem _ n.value_mem_parts)

theorem entry (role : Role) {q : NodeRef} (hq : q ∈ (n.entries role).values) : C.Knows s q :=
  h _ (List.mem_cons_of_mem _ (n.entry_mem_parts role hq))

end KnowsNode

/-- Whether a lawful correspondence is about nodes that are there. -/
structure Stocked (C : Correspondence) : Prop extends C.Lawful where
  has {s t : Store} {r r' : NodeRef} : C.stores s t → C.Paired s r r' → s.Has (.node r)

/-- What makes a correspondence fit for reads of trees: no node comes to lie below itself, nodes that
belong to themselves are as they were, and what corresponds looks the same. -/
structure Fit (C : Correspondence) : Prop extends C.Stocked where
  wellFormed {s t : Store} : C.stores s t → s.WellFormed
  nodes_le {s t : Store} : C.stores s t → s.nodes.size ≤ t.nodes.size
  node {s t : Store} {r : NodeRef} : C.stores s t → C.Knows s r → t.node r = s.node r
  links {s t : Store} {r : NodeRef} : C.stores s t → C.Knows s r →
    ∀ p ∈ s.links (.node r), C.values s p p
  ends {s t : Store} {r : NodeRef} : C.stores s t → C.Knows s r →
    EndsWithin s.held (s.nodes.size + 1) r
  alike {s t : Store} {v w : Value} : C.stores s t → C.values s v w → Alike s t v w
  form {ν : Type} {s t : Store} {v w : Value} : C.stores s t → C.values s v w →
    (t.form w : Except Fault (Data ν)) = s.form v
  sameNodes {s t : Store} {r q : NodeRef} : C.stores s t → C.Knows s r → C.Knows s q →
    t.sameNodes r q = s.sameNodes r q

variable (C : Correspondence)

/-- What a read starts from: no wrapper has been destroyed on request, operators are standard ones,
and there is a store for another run. -/
structure Ready (x : World σ) : Prop where
  arises : x.forest.Arises false
  standard : ∀ v g, (x.forest.wrapper v).registry = some g → g.IsStandard
  partner : ∃ t, C.stores x.forest.store t

/-- What a run of a read leaves as it is. -/
structure Follows (x z : World σ) : Prop where
  before : C.Ready x
  ready : C.Ready z
  sustains : x.forest.Sustains z.forest
  later : x.forest.store.Later z.forest.store
  user : z.user = x.user

/-- Whether a wrapper is attached to a root whose node is known. -/
def Covers (x : World σ) (w : WrapperRef) : Prop :=
  ∃ top : WrapperRef, top.index < x.forest.wrappers.size ∧ (x.forest.wrapper top).parent = none ∧
    C.Knows x.forest.store (x.forest.wrapper top).node ∧ x.forest.Hangs top w

/-- How the second run of something ends after a first run from a world has ended in a certain
way. -/
inductive Repeats (x : World σ) (R : World σ → α → β → Prop) (m' : TreeM σ β) :
    EStateM.Result Fault (World σ) α → Prop
  | ok {a : α} {z : World σ} (h : C.Follows x z)
    (again : ∀ (y : World σ) t, C.stores x.forest.store t → z.forest.Retains y.forest →
      ∃ b t', m' (y.withStore t) = .ok b (y.withStore t') ∧ C.stores z.forest.store t' ∧ R z a b) :
    Repeats x R m' (.ok a z)
  | error {e : Fault} {z : World σ} (h : C.Follows x z)
    (again : ∀ (y : World σ) t, C.stores x.forest.store t → z.forest.Retains y.forest →
      ∃ t', m' (y.withStore t) = .error e (y.withStore t')) :
    Repeats x R m' (.error e z)

/-- Whether the second of two computations repeats what the first one does. -/
def Echoes (x : World σ) (R : World σ → α → β → Prop) (m : TreeM σ α) (m' : TreeM σ β) : Prop :=
  C.Repeats x R m' (m x)

variable {C} {x z : World σ} {w c : WrapperRef} {key : String}

/-! ### Worlds that are ready -/

namespace Follows

theorem refl (h : C.Ready x) : C.Follows x x := ⟨h, h, .refl _, .refl _, rfl⟩

theorem trans {y : World σ} (h : C.Follows x y) (h' : C.Follows y z) : C.Follows x z :=
  ⟨h.before, h'.ready, h.sustains.trans h'.sustains, h.later.trans h'.later, h'.user.trans h.user⟩

end Follows

namespace Ready

variable (hx : C.Ready x)

include hx

theorem kept : x.forest.Kept := hx.arises.kept

/-- What a known node holds belongs to itself. -/
theorem links (hC : C.Fit) {r : NodeRef} (hr : C.Knows x.forest.store r) :
    C.KnowsNode x.forest.store (x.forest.store.node r) :=
  have ⟨_, ht⟩ := hx.partner
  hC.links ht hr

/-- Runs on the store alone leave all wrappers. -/
theorem follows {s t : Store} (hs : x.forest.store.Later s) (ht : C.stores s t) :
    C.Follows x (x.withStore s) where
  before := hx
  ready := ⟨hx.arises.store s, hx.standard, t, ht⟩
  sustains := .of_extends rfl hs.cells
  later := hs
  user := rfl

/-- Asking for a child leaves all attached wrappers. -/
theorem child (hw : w.index < x.forest.wrappers.size) (key : String) :
    C.Follows x (x.withForest (x.forest.child w key).2) where
  before := hx
  ready := by
    refine ⟨hx.arises.child hw key, fun v g hg => ?_, ?_⟩
    · by_cases hv : v.index < x.forest.wrappers.size
      · exact hx.standard v g ((x.forest.settings_child hw key hv).1 ▸ hg)
      · cases (x.forest.registry_child hw key (Nat.not_lt.mp hv)).symm.trans hg
    · obtain ⟨t, ht⟩ := hx.partner
      exact ⟨t, (x.forest.store_child w key).symm ▸ ht⟩
  sustains := .child hx.arises.placed hx.arises.lively hw key
  later := by
    show x.forest.store.Later (x.forest.child w key).2.store
    rw [x.forest.store_child]
    exact .refl _
  user := rfl

end Ready

namespace Covers

variable (hC : C.Fit) (hw : C.Covers x w)

include hw

theorem attached : x.forest.Attached w :=
  have ⟨top, hmade, hparent, _, hhangs⟩ := hw
  ⟨top, hmade, hparent, hhangs⟩

theorem step (hkept : (x.forest.wrapper w).cache.get? key = some c)
    (hnode : (x.forest.nodeAt w).children.get? key = some (x.forest.wrapper c).node) :
    C.Covers x c :=
  have ⟨top, hmade, hparent, hknows, hhangs⟩ := hw
  ⟨top, hmade, hparent, hknows, hhangs.step hkept hnode⟩

theorem parent (hk : x.forest.Kept) {u : WrapperRef}
    (hu : (x.forest.wrapper w).parent = some u) : C.Covers x u :=
  have ⟨top, hmade, hparent, hknows, hhangs⟩ := hw
  ⟨top, hmade, hparent, hknows, hhangs.parent hk hparent hu⟩

theorem ancestors (hk : x.forest.Kept) : ∀ a ∈ w :: x.forest.ancestors w, C.Covers x a :=
  List.forall_mem_cons.mpr ⟨hw, (Forest.ancestorsTo_congr (fun _ _ => rfl)
    (fun _ _ ha hp => ha.parent hk hp) hw).2⟩

include hC

theorem later (h : C.Follows x z) : C.Covers z w := by
  obtain ⟨top, hmade, hparent, hknows, hhangs⟩ := hw
  have hlasts := h.sustains.lasts hmade hparent
  have hmoved := (Forest.Hangs.itself x.forest top).unmoved hlasts
  refine ⟨top, Nat.lt_of_lt_of_le hmade h.sustains.size, hmoved.parent.trans hparent, ?_,
    hhangs.lasts hlasts⟩
  rw [hmoved.node]
  exact hknows.later hC.toLawful h.later

theorem knows (hx : C.Ready x) : C.Knows x.forest.store (x.forest.wrapper w).node := by
  obtain ⟨top, -, -, hknows, hhangs⟩ := hw
  obtain ⟨t, ht⟩ := hx.partner
  refine hhangs.induction (P := fun u => C.Knows x.forest.store (x.forest.wrapper u).node) hknows
    fun u key c hu _ hnode => ?_
  refine hC.links ht hu _ (Store.parts_subset_links _ ?_)
  exact (x.forest.nodeAt u).entry_mem_parts .children (Entries.mem_values_of_get? hnode)

/-- The node and its type are the same to the second run. -/
theorem nodeAt_eq (hx : C.Ready x) {g : Forest} (hs : C.stores x.forest.store g.store)
    (hg : x.forest.Retains g) : g.nodeAt w = x.forest.nodeAt w := by
  rw [Forest.nodeAt, (hg.unmoved hw.attached).node]
  exact hC.node hs (hw.knows hC hx)

/-- Going down from a node that is known ends as before in a later world. -/
theorem endsWithin_later (h : C.Follows x z) {n : ℕ}
    (hn : EndsWithin x.forest.store.held n (x.forest.wrapper w).node) :
    EndsWithin z.forest.store.held n (z.forest.wrapper w).node := by
  rw [(h.sustains.unmoved hw.attached).node]
  obtain ⟨t, ht⟩ := h.before.partner
  refine hn.congr fun q hq => ?_
  have hknows : C.Knows x.forest.store q :=
    hq.closed (hw.knows hC h.before) fun r _ hr p hp =>
      hC.links ht hr _ (Store.parts_subset_links _ (Store.mem_parts_of_held hp))
  rw [Store.held, Store.held, h.later.node (hC.has ht hknows)]

end Covers

/-! ### Rules -/

namespace Echoes

variable {R : World σ → α → β → Prop} {S : World σ → γ → δ → Prop} {m : TreeM σ α}
  {m' : TreeM σ β}

theorem pure {a : α} {b : β} (hx : C.Ready x) (h : R x a b) :
    C.Echoes x R (Pure.pure a) (Pure.pure b) :=
  .ok (.refl hx) fun _ t ht _ => ⟨b, t, rfl, ht, h⟩

theorem throw (hx : C.Ready x) (e : Fault) :
    C.Echoes x R (MonadExcept.throw e) (MonadExcept.throw e) :=
  .error (.refl hx) fun _ t _ _ => ⟨t, rfl⟩

theorem bind {k : α → TreeM σ γ} {k' : β → TreeM σ δ} (hm : C.Echoes x R m m')
    (hk : ∀ z a b, C.Follows x z → R z a b → C.Echoes z S (k a) (k' b)) :
    C.Echoes x S (m >>= k) (m' >>= k') := by
  rw [Echoes] at hm ⊢
  cases hres : m x with
  | error e z =>
    rw [hres] at hm
    rw [bind_of_error hres]
    cases hm with
    | error hxz again =>
      refine .error hxz fun y t ht hy => ?_
      obtain ⟨t', e'⟩ := again y t ht hy
      exact ⟨t', bind_of_error e' k'⟩
  | ok a z =>
    rw [hres] at hm
    rw [bind_of_ok hres]
    cases hm with
    | ok hxz again =>
      -- the first run goes on the same whatever the second one has come to, if only to something
      obtain ⟨t₀, ht₀⟩ := hxz.before.partner
      obtain ⟨b₀, -, -, -, hR₀⟩ := again z t₀ ht₀ (.of_sustains (.refl z.forest))
      have hrest : ∀ b, R z a b → C.Repeats z S (k' b) (k a z) := fun b => hk z a b hxz
      have hfirst := hrest b₀ hR₀
      cases hres' : k a z with
      | error e z' =>
        rw [hres'] at hrest hfirst
        cases hfirst with
        | error hzz' =>
          refine .error (hxz.trans hzz') fun y t ht hy => ?_
          obtain ⟨b, t', e', ht', hR⟩ := again y t ht (hy.earlier hzz'.sustains)
          cases hrest b hR with
          | error _ again' =>
            obtain ⟨t'', e''⟩ := again' y t' ht' hy
            exact ⟨t'', (bind_of_ok e' k').trans e''⟩
      | ok c z' =>
        rw [hres'] at hrest hfirst
        cases hfirst with
        | ok hzz' =>
          refine .ok (hxz.trans hzz') fun y t ht hy => ?_
          obtain ⟨b, t', e', ht', hR⟩ := again y t ht (hy.earlier hzz'.sustains)
          cases hrest b hR with
          | ok _ again' =>
            obtain ⟨d, t'', e'', ht'', hS⟩ := again' y t' ht' hy
            exact ⟨d, t'', (bind_of_ok e' k').trans e'', ht'', hS⟩

theorem mono {R' : World σ → α → β → Prop} (hm : C.Echoes x R m m')
    (h : ∀ z a b, C.Follows x z → R z a b → R' z a b) : C.Echoes x R' m m' := by
  rw [Echoes] at hm ⊢
  generalize m x = o at hm
  cases hm with
  | error hxz again => exact .error hxz again
  | ok hxz again =>
    refine .ok hxz fun y t ht hy => ?_
    obtain ⟨b, t', e, ht', hR⟩ := again y t ht hy
    exact ⟨b, t', e, ht', h _ _ _ hxz hR⟩

/-- What is looked at before going on may differ, as long as the rest repeats. -/
theorem look {k : Forest → TreeM σ γ} {k' : Forest → TreeM σ δ} (hx : C.Ready x)
    (h : ∀ g : Forest, C.stores x.forest.store g.store → x.forest.Retains g →
      C.Echoes x S (k x.forest) (k' g)) :
    C.Echoes x S (TreeM.forest >>= k) (TreeM.forest >>= k') := by
  obtain ⟨t₀, ht₀⟩ := hx.partner
  have hretains : ∀ (y : World σ) t, x.forest.Retains y.forest →
      x.forest.Retains (y.withStore t).forest := fun _ _ hy => ⟨hy.unmoved, hy.kept⟩
  have hfirst := h (x.withStore t₀).forest ht₀ (hretains x t₀ (.of_sustains (.refl x.forest)))
  rw [Echoes, TreeM.forest_bind] at *
  cases hres : k x.forest x with
  | error e z =>
    rw [hres] at hfirst
    cases hfirst with
    | error hxz =>
      refine .error hxz fun y t ht hy => ?_
      have hlast := h (y.withStore t).forest ht (hretains y t (hy.earlier hxz.sustains))
      rw [Echoes, hres] at hlast
      cases hlast with
      | error _ again => exact again y t ht hy
  | ok c z =>
    rw [hres] at hfirst
    cases hfirst with
    | ok hxz =>
      refine .ok hxz fun y t ht hy => ?_
      have hlast := h (y.withStore t).forest ht (hretains y t (hy.earlier hxz.sustains))
      rw [Echoes, hres] at hlast
      cases hlast with
      | ok _ again => exact again y t ht hy

/-- What is read off the store and is the same on every corresponding one. -/
theorem check {f f' : Store → Except Fault γ} (hx : C.Ready x)
    (h : ∀ t, C.stores x.forest.store t → f' t = f x.forest.store) :
    C.Echoes x (fun _ a b => b = a) (TreeM.check f) (TreeM.check f') := by
  refine look hx fun g hg _ => ?_
  rw [h g.store hg]
  cases f x.forest.store with
  | ok a => exact pure hx rfl
  | error e => exact throw hx e

/-- An evaluation in a context of standard operators gives corresponding values. -/
theorem eval [Host] (hC : C.Fit) (hx : C.Ready x) {c : Context} {r : NodeRef}
    (hc : C.Contexts x.forest.store c c) (hr : C.Knows x.forest.store r) :
    C.Echoes x (fun z => C.values z.forest.store) (TreeM.eval (evaluate c r))
      (TreeM.eval (evaluate c r)) := by
  have hstep : ∀ t, C.stores x.forest.store t → C.InStep x.forest.store C.values
      (evaluate c r x.forest.store) (evaluate c r t) := fun t ht =>
    evaluate_tracks hC.toLawful hc rfl hr x.forest.store t (.refl _) ht
  obtain ⟨t₀, ht₀⟩ := hx.partner
  have hfirst := hstep t₀ ht₀
  rw [Echoes]
  generalize hrun : evaluate c r x.forest.store = o at hstep hfirst
  generalize evaluate c r t₀ = o₀ at hfirst
  cases hfirst with
  | done hs ht' _ =>
    rw [TreeM.eval_done hrun]
    refine .ok (hx.follows hs ht') fun y t ht _ => ?_
    have hlast := hstep t ht
    generalize hrun' : evaluate c r t = o' at hlast
    cases hlast with
    | done _ ht' hR => exact ⟨_, _, TreeM.eval_done hrun', ht', hR⟩
  | failed hs ht' _ =>
    rw [TreeM.eval_failed hrun]
    refine .error (hx.follows hs ht') fun y t ht _ => ?_
    have hlast := hstep t ht
    generalize hrun' : evaluate c r t = o' at hlast
    cases hlast with
    | failed _ _ _ => exact ⟨_, TreeM.eval_failed hrun'⟩

/-- A child is found again under the wrapper that has been made or kept for it. -/
theorem child (hC : C.Fit) (hx : C.Ready x) (hw : C.Covers x w) (key : String) :
    C.Echoes x (fun z o o' => o' = o ∧ ∀ c, o = some c → C.Covers z c ∧
        (z.forest.wrapper c).node ∈ z.forest.store.held (z.forest.wrapper w).node)
      (TreeM.updateForest (·.child w key)) (TreeM.updateForest (·.child w key)) := by
  have hmade := hw.attached.made hx.kept.toOrdered
  have hfollows := hx.child (C := C) hmade key
  have hcovers := hw.later hC hfollows
  have hstore := x.forest.store_child w key
  have hnodeAt := (hfollows.sustains.unmoved hw.attached).nodeAt hstore
  have hkeeps := x.forest.child_keeps hmade key
  rw [← hnodeAt] at hkeeps
  obtain ⟨o, g, hog⟩ : ∃ o g, x.forest.child w key = (o, g) := ⟨_, _, rfl⟩
  have hrun : ∀ y : World σ, (TreeM.updateForest (·.child w key) : TreeM σ _) y =
      .ok (y.forest.child w key).1 (y.withForest (y.forest.child w key).2) := fun _ => rfl
  rw [hog] at hfollows hcovers hkeeps hstore
  rw [Echoes, hrun, hog]
  refine .ok hfollows fun y t ht hy => ⟨o, t, ?_, hstore ▸ ht, rfl, fun c hc => ?_⟩
  · -- the second run finds the wrapper that the first one has left under the key
    have hnode := hcovers.nodeAt_eq hC hfollows.ready (g := (y.withStore t).forest) (hstore ▸ ht)
      ⟨hy.unmoved, hy.kept⟩
    have hagain : (y.withStore t).forest.child w key = (o, (y.withStore t).forest) := by
      cases o with
      | none => rw [Forest.child, hnode, hkeeps.2 rfl]
      | some c =>
        obtain ⟨hkept, hheld⟩ := hkeeps.1 c rfl
        have hcache : ((y.withStore t).forest.wrapper w).cache.get? key = some c :=
          hy.kept hcovers.attached hkept hheld
        have hsame : ((y.withStore t).forest.wrapper c).node = (g.wrapper c).node :=
          (hy.unmoved (hcovers.step hkept hheld).attached).node
        rw [Forest.child, hnode, hheld]
        simp only [hcache, hsame, if_true]
    rw [hrun, hagain]
    rfl
  · obtain ⟨hkept, hheld⟩ := hkeeps.1 c hc
    exact ⟨hcovers.step hkept hheld,
      Store.mem_held.mpr ⟨.children, Entries.mem_values_of_get? hheld⟩⟩

/-- A new dictionary of corresponding values. -/
theorem newDict (hC : C.Fit) (hx : C.Ready x) {d d' : Entries Value}
    (hd : C.Maps x.forest.store d d') :
    C.Echoes x (fun z => C.values z.forest.store) (TreeM.newDict d) (TreeM.newDict d') := by
  obtain ⟨t₀, ht₀⟩ := hx.partner
  have hlater : x.forest.store.Later (x.forest.store.newDict d).2 := Store.later_allocDict d
  refine .ok (hx.follows hlater (hC.newDict ht₀ hd).1) fun y t ht _ => ?_
  exact ⟨_, _, rfl, (hC.newDict ht hd).1, (hC.newDict ht hd).2⟩

/-- A visit may go deeper the second time. -/
theorem visitDepth {k : ℕ → TreeM σ γ} {k' : ℕ → TreeM σ δ} (hC : C.Fit) (hx : C.Ready x)
    (h : ∀ n n', x.forest.store.nodes.size + 1 ≤ n → n ≤ n' → C.Echoes x S (k n) (k' n')) :
    C.Echoes x S (TreeM.visitDepth >>= k) (TreeM.visitDepth >>= k') := by
  have hlook : C.Echoes x S (TreeM.forest >>= fun f => k (f.store.nodes.size + TreeM.visitMargin))
      (TreeM.forest >>= fun f => k' (f.store.nodes.size + TreeM.visitMargin)) :=
    look hx fun g hg _ =>
      h _ _ (Nat.add_le_add_left (by decide) _) (Nat.add_le_add_right (hC.nodes_le hg) _)
  exact hlook

end Echoes

end Correspondence

end LiveTree
