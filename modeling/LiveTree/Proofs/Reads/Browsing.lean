import LiveTree.Proofs.Reads.Again
import LiveTree.Proofs.Reads.SeatRuns
import LiveTree.Proofs.Tree.Handing

/-! Asking for children below a wrapper, one after another and with evaluations in between. It makes
wrappers and drops others, but where the wrappers stand that a path leads to does not depend on what
has been asked for before: the seat at a path is fixed by the seat of the upper wrapper, the nodes
on the way and the registries that wrappers below have of their own. -/

namespace LiveTree

/-! ### Seats down a path -/

namespace Seat

/-- The seat of a child, which may have a registry of its own. -/
def child (p : Seat) (r : NodeRef) (own : Option Registry) : Seat where
  node := r
  root := p.root
  known := (r, some p.node) :: p.known
  registry := own <|> p.registry

/-- The seat at a path, when registries of their own are known for the wrappers below. -/
def along (s : Store) : Path → Seat → (Path → Option Registry) → Option Seat
  | [], p, _ => some p
  | key :: rest, p, own =>
    match (s.node p.node).children.get? key with
    | none => none
    | some r => along s rest (p.child r (own [key])) fun q => own (key :: q)

theorem along_eq_of_nodes {s t : Store} (h : t.nodes = s.nodes) (path : Path) (p : Seat)
    (own : Path → Option Registry) : along t path p own = along s path p own := by
  induction path generalizing p own with
  | nil => rfl
  | cons key rest ih =>
    rw [along, along, Store.node_eq_of_nodes h]
    cases (s.node p.node).children.get? key with
    | none => rfl
    | some r => exact ih _ _

theorem isSome_along (s : Store) (p : Path) (q : Seat) (own : Path → Option Registry) :
    (along s p q own).isSome = (s.follow q.node p).isSome := by
  induction p generalizing q own with
  | nil => rfl
  | cons key rest ih =>
    rw [along, Store.follow]
    cases (s.node q.node).children.get? key with
    | none => rfl
    | some r => exact ih _ _

/-- Whether the registries that wrappers below have of their own have standard operators only. -/
def OwnStandard (own : Path → Option Registry) : Prop := ∀ q g, own q = some g → g.IsStandard

theorem Standard.child {p : Seat} (hp : p.Standard) {own : Option Registry}
    (hown : ∀ g, own = some g → g.IsStandard) (r : NodeRef) : (p.child r own).Standard := by
  cases own with
  | none => exact hp
  | some g => exact hown

namespace Grounded

variable {s : Store} {p : Seat}

theorem child (hp : p.Grounded s) {r : NodeRef} (hr : s.Grounded (.node r)) {own : Option Registry}
    (hown : ∀ g, own = some g → g.IsStandard) : (p.child r own).Grounded s where
  node := hr
  root := hp.root
  known := by
    refine List.forall_mem_cons.mpr ⟨⟨hr, fun q hq => ?_⟩, hp.known⟩
    cases hq
    exact hp.node
  standard := hp.standard.child hown r

/-- What is below a seat without cycles has none. -/
theorem along (hs : s.WellFormed) (hp : p.Grounded s) {path : Path} {own : Path → Option Registry}
    (hown : OwnStandard own) {q : Seat} (hq : along s path p own = some q) :
    q.Grounded s := by
  induction path generalizing p own with
  | nil =>
    cases hq
    exact hp
  | cons key rest ih =>
    rw [Seat.along] at hq
    cases hr : (s.node p.node).children.get? key with
    | none =>
      rw [hr] at hq
      cases hq
    | some r =>
      rw [hr] at hq
      have hr : s.Grounded (.node r) := hp.node.links hs _ (Store.parts_subset_links _
        (Node.entry_mem_parts _ .children (Entries.mem_values_of_get? hr)))
      exact ih (hp.child hr (hown [key])) (fun q => hown (key :: q)) hq

end Grounded

end Seat

namespace Forest

variable {f g h : Forest} {w c u v : WrapperRef} {key : String} {p : Path}

/-- The registry that the kept wrapper down a path has of its own, if going down meets kept wrappers
only. -/
def own (f : Forest) (w : WrapperRef) : Path → Option Registry
  | [] => (f.wrapper w).registry
  | key :: rest =>
    match (f.wrapper w).cache.get? key with
    | none => none
    | some c =>
      if (f.nodeAt w).children.get? key = some (f.wrapper c).node then f.own c rest else none

theorem own_cons (hkept : (f.wrapper w).cache.get? key = some c)
    (hnode : (f.nodeAt w).children.get? key = some (f.wrapper c).node) :
    f.own w (key :: p) = f.own c p := by
  rw [own, hkept]
  exact if_pos hnode

theorem own_append (h : f.Along w p c) (q : Path) : f.own w (p ++ q) = f.own c q := by
  induction h with
  | here => rfl
  | child hkept hnode _ ih => exact (own_cons hkept hnode).trans ih

theorem own_of_along (h : f.Along w p c) : f.own w p = (f.wrapper c).registry := by
  rw [← List.append_nil p, own_append h, own]

theorem along_or_own_eq_none (f : Forest) (w : WrapperRef) (p : Path) :
    (∃ c, f.Along w p c) ∨ f.own w p = none := by
  induction p generalizing w with
  | nil => exact .inl ⟨w, .here w⟩
  | cons key rest ih =>
    rw [own]
    cases hkept : (f.wrapper w).cache.get? key with
    | none => exact .inr rfl
    | some c =>
      dsimp only
      split
      · rename_i hnode
        exact (ih c).imp_left fun ⟨d, hd⟩ => ⟨d, .child hkept hnode hd⟩
      · exact .inr rfl

/-- Wrappers that come into a way down without a registry make no difference to what is known of
registries. -/
theorem own_eq_of_lasts (hlasts : Lasts w f g)
    (hnew : ∀ p c, g.Along w p c → f.Along w p c ∨ (g.wrapper c).registry = none) :
    g.own w = f.own w := by
  have hold : ∀ p c, f.Along w p c → g.own w p = f.own w p := fun p c hc => by
    rw [own_of_along hc, own_of_along (hlasts.along p c hc), (hlasts.unmoved p c hc).registry]
  funext p
  rcases f.along_or_own_eq_none w p with ⟨c, hc⟩ | e
  · exact hold p c hc
  rcases g.along_or_own_eq_none w p with ⟨c, hc⟩ | e'
  · rcases hnew p c hc with hc' | hnone
    · exact hold p c hc'
    · rw [e, own_of_along hc, hnone]
  · rw [e, e']

/-- A wrapper that was there before is met, after asking for a child below, where it was met before. -/
theorem Placed.along_of_child (h : f.Placed) (hu : u.index < f.wrappers.size)
    (hv : v.index < f.wrappers.size) (hle : u.index ≤ v.index)
    (hc : (f.child v key).2.Along u p c) (hold : c.index < f.wrappers.size) : f.Along u p c := by
  have hlasts := Lasts.child h hu (.inr hle) hv key
  have hbeyond := h.toKept.beyond_child hv key
  have hkept := h.toKept.child hv key
  -- it is met after others that were there before
  induction p using List.reverseRecOn generalizing c with
  | nil =>
    cases hc
    exact .here u
  | append_singleton p key' ih =>
    obtain ⟨d, hd, hcache, hnode⟩ := hc.last_step
    have hd := ih hd (Nat.lt_trans (hkept.after d key' c hcache) hold)
    rw [(hlasts.unmoved p d hd).nodeAt hbeyond.store, hbeyond.node c hold] at hnode
    rcases (f.child_gains hv key d).2 key' c hcache with hcache | hfresh
    · exact hd.step hcache hnode
    · exact absurd hfresh (Nat.ne_of_lt hold)

/-- Asking for a child below a wrapper makes no difference to the registries known there. -/
theorem Placed.own_child (h : f.Placed) (hu : u.index < f.wrappers.size)
    (hv : v.index < f.wrappers.size) (hle : u.index ≤ v.index) (key : String) :
    (f.child v key).2.own u = f.own u := by
  refine own_eq_of_lasts (Lasts.child h hu (.inr hle) hv key) fun p c hc => ?_
  by_cases hold : c.index < f.wrappers.size
  · exact .inl (h.along_of_child hu hv hle hc hold)
  · exact .inr (f.registry_child hv key (Nat.not_lt.mp hold))

/-! ### Living wrappers -/

/-- Whether the kept wrappers on all ways down from a wrapper are alive. -/
def Thrives (f : Forest) (w : WrapperRef) : Prop :=
  ∀ p c, f.Along w p c → (f.wrapper c).destroyed = false

theorem Lively.thrives (h : f.Lively) (hw : (f.wrapper w).destroyed = false) : f.Thrives w :=
  fun _ _ hc => hc.live h hw

theorem Thrives.along (h : f.Thrives w) (hc : f.Along w p c) : f.Thrives c :=
  fun q d hd => h (p ++ q) d (hc.append hd)

/-- A wrapper that is made for a child is alive. -/
theorem destroyed_child (f : Forest) (hw : w.index < f.wrappers.size) (key : String)
    (hv : f.wrappers.size ≤ v.index) : ((f.child w key).2.wrapper v).destroyed = false := by
  rcases f.fresh_child hw key hv with e | ⟨r, e⟩ <;> rw [e] <;> rfl

/-- Asking for a child below a wrapper leaves all kept wrappers there alive. -/
theorem Placed.thrives_child (h : f.Placed) (hu : u.index < f.wrappers.size)
    (hv : v.index < f.wrappers.size) (hle : u.index ≤ v.index) (key : String) (hlive : f.Thrives u) :
    (f.child v key).2.Thrives u := by
  intro p c hc
  by_cases hold : c.index < f.wrappers.size
  · have hc := h.along_of_child hu hv hle hc hold
    rw [((Lasts.child h hu (.inr hle) hv key).unmoved p c hc).destroyed]
    exact hlive p c hc
  · exact f.destroyed_child hv key (Nat.not_lt.mp hold)

/-! ### The seat of a child -/

theorem seat_of_parent (ho : f.Ordered) (hparent : (f.wrapper c).parent = some w) :
    f.seat c = (f.seat w).child (f.wrapper c).node (f.wrapper c).registry := by
  have hancestors := f.ancestors_eq_cons ho hparent
  have hroot : f.root c = f.root w := by
    rw [root, root, hancestors, List.getLast?_cons]
    rfl
  have hregistry : f.registry c = ((f.wrapper c).registry <|> f.registry w) := by
    rw [registry, registry, List.findSome?_cons, hancestors]
    cases (f.wrapper c).registry <;> rfl
  rw [seat, seat, Seat.child, hroot, hregistry, hancestors]
  simp only [List.map_cons, hparent, Option.map_some]

/-- Kept wrappers down a path stand where the path leads to. -/
theorem seat_of_along (h : f.Along w p c) (hk : f.Kept) (hl : f.Thrives w) :
    Seat.along f.store p (f.seat w) (f.own w) = some (f.seat c) := by
  induction h with
  | here => rfl
  | @child w c d key rest hkept hnode _ ih =>
    have hc : f.Along w [key] c := .child hkept hnode (.here c)
    have hparent := (hk.place w key c hkept (hl _ c hc)).1
    have hown : (fun q => f.own w (key :: q)) = f.own c := funext fun q => own_cons hkept hnode
    have hregistry : f.own w [key] = (f.wrapper c).registry := own_cons hkept hnode
    have hnode' : (f.store.node (f.seat w).node).children.get? key = some (f.wrapper c).node := hnode
    rw [Seat.along, hnode', hown, hregistry]
    dsimp only
    rw [← seat_of_parent hk.toOrdered hparent]
    exact ih (hl.along hc)

/-! ### Browsing -/

/-- Without destroying on request a program comes to nothing that it does not come to with it. -/
theorem Arises.weaken (h : f.Arises false) : ∀ onRequest, f.Arises onRequest
  | false => h
  | true => h.arisesBy.arises

theorem along_of_nodes {s : Store} (hn : s.nodes = f.store.nodes)
    (hc : Along { f with store := s } w p c) : f.Along w p c := by
  induction hc with
  | here => exact .here _
  | @child v c _ key _ hkept hnode _ ih =>
    have hsame : nodeAt { f with store := s } v = f.nodeAt v := Store.node_eq_of_nodes hn _
    exact .child hkept (hsame ▸ hnode) ih

/-- What asking for children of a wrapper and below, and evaluating in between, leaves as it is,
whatever has become of the wrappers elsewhere. -/
structure Roamed (w : WrapperRef) (f g : Forest) : Prop where
  arises : ∀ onRequest, f.Arises onRequest → g.Arises onRequest
  later : f.store.Later g.store
  nodes : g.store.nodes = f.store.nodes
  size_le : f.wrappers.size ≤ g.wrappers.size
  lasts : ∀ u, u.index ≤ w.index → Lasts u f g
  own : ∀ u, u.index ≤ w.index → g.own u = f.own u
  thrives : ∀ u, u.index ≤ w.index → f.Thrives u → g.Thrives u

namespace Roamed

theorem refl (f : Forest) (w : WrapperRef) : Roamed w f f :=
  ⟨fun _ h => h, .refl _, rfl, Nat.le_refl _, fun u _ => .refl u f, fun _ _ => rfl, fun _ _ h => h⟩

theorem trans (hfg : Roamed w f g) (hgh : Roamed w g h) : Roamed w f h where
  arises b hf := hgh.arises b (hfg.arises b hf)
  later := hfg.later.trans hgh.later
  nodes := hgh.nodes.trans hfg.nodes
  size_le := Nat.le_trans hfg.size_le hgh.size_le
  lasts u hu := (hfg.lasts u hu).trans (hgh.lasts u hu)
  own u hu := (hgh.own u hu).trans (hfg.own u hu)
  thrives u hu hlive := hgh.thrives u hu (hfg.thrives u hu hlive)

/-- Browsing below a wrapper is browsing below those made before. -/
theorem of_le (hb : Roamed c f g) (hle : w.index ≤ c.index) : Roamed w f g :=
  { hb with
    lasts := fun u hu => hb.lasts u (Nat.le_trans hu hle)
    own := fun u hu => hb.own u (Nat.le_trans hu hle)
    thrives := fun u hu => hb.thrives u (Nat.le_trans hu hle) }

theorem of_child (hf : f.Placed) (hw : w.index < f.wrappers.size) (key : String) :
    Roamed w f (f.child w key).2 where
  arises _ h := h.child hw key
  later := f.store_child w key ▸ .refl _
  nodes := by rw [f.store_child]
  size_le := f.size_le_child w key
  lasts u hu := .child hf (Nat.lt_of_le_of_lt hu hw) (.inr hu) hw key
  own _ hu := hf.own_child (Nat.lt_of_le_of_lt hu hw) hw hu key
  thrives _ hu := hf.thrives_child (Nat.lt_of_le_of_lt hu hw) hw hu key

theorem of_store (f : Forest) (w : WrapperRef) {s : Store} (hs : f.store.Later s)
    (hn : s.nodes = f.store.nodes) : Roamed w f { f with store := s } where
  arises _ h := h.store s
  later := hs
  nodes := hn
  size_le := Nat.le_refl _
  lasts _ _ := .of_extends rfl hs.cells
  own _ _ := own_eq_of_lasts (.of_extends rfl hs.cells) fun _ _ hc => .inl (along_of_nodes hn hc)
  thrives _ _ hlive p c hc := hlive p c (along_of_nodes hn hc)

section

variable (hb : Roamed w f g)

include hb

theorem unmoved : f.Unmoved g w := (hb.lasts w (Nat.le_refl _)).unmoved [] w (.here w)

theorem nodeAt_eq : g.nodeAt w = f.nodeAt w := by
  rw [nodeAt, nodeAt, hb.unmoved.node, Store.node_eq_of_nodes hb.nodes]

theorem made (hw : w.index < f.wrappers.size) : w.index < g.wrappers.size :=
  Nat.lt_of_lt_of_le hw hb.size_le

theorem along (h : f.Along w p c) : g.Along w p c := (hb.lasts w (Nat.le_refl _)).along p c h

theorem seat (ho : f.Ordered) : g.seat w = f.seat w :=
  seat_eq (P := fun a => a.index ≤ w.index)
    (fun a ha => (hb.lasts a ha).unmoved [] a (.here a))
    (fun a p ha hp => Nat.le_of_lt (Nat.lt_of_lt_of_le (ho.parent_lt a p hp) ha)) (Nat.le_refl _)

end

end Roamed

/-- What asking for children of a wrapper and below, and evaluating in between, leaves as it is. -/
structure Browsed (w : WrapperRef) (f g : Forest) : Prop where
  arises : g.Arises false
  later : f.store.Later g.store
  nodes : g.store.nodes = f.store.nodes
  size_le : f.wrappers.size ≤ g.wrappers.size
  lasts : ∀ u, u.index ≤ w.index → Lasts u f g
  own : ∀ u, u.index ≤ w.index → g.own u = f.own u

theorem Roamed.browsed (hb : Roamed w f g) (hf : f.Arises false) : Browsed w f g :=
  { hb with arises := hb.arises false hf }

namespace Browsed

/-- All kept wrappers are alive then. -/
theorem roamed (hb : Browsed w f g) : Roamed w f g :=
  { hb with
    arises := fun onRequest _ => hb.arises.weaken onRequest
    thrives := fun u hu hlive => hb.arises.lively.thrives (by
      rw [((hb.lasts u hu).unmoved [] u (.here u)).destroyed]
      exact hlive [] u (.here u)) }

theorem trans (hfg : Browsed w f g) (hgh : Browsed w g h) : Browsed w f h :=
  { hfg.roamed.trans hgh.roamed with arises := hgh.arises }

section

variable (hb : Browsed w f g)

include hb

theorem unmoved : f.Unmoved g w := hb.roamed.unmoved

theorem along (h : f.Along w p c) : g.Along w p c := hb.roamed.along h

/-- The wrapper that is then met down a path stands where the path led to before. -/
theorem seat_along (ho : f.Ordered) (hw : (f.wrapper w).destroyed = false) (h : g.Along w p c) :
    Seat.along f.store p (f.seat w) (f.own w) = some (g.seat c) := by
  rw [← hb.roamed.seat ho, ← hb.own w (Nat.le_refl _), ← Seat.along_eq_of_nodes hb.nodes]
  exact seat_of_along h hb.arises.kept
    (hb.arises.lively.thrives (hb.unmoved.destroyed.trans hw))

end

end Browsed

/-- What a wrapper gives when it is asked for a child that is there. -/
structure Gives (w : WrapperRef) (key : String) (f : Forest) (c : WrapperRef) (g : Forest) :
    Prop where
  roamed : Roamed w f g
  placed : g.Placed
  store : g.store = f.store
  along : g.Along w [key] c
  node : (f.nodeAt w).children.get? key = some (g.wrapper c).node
  after : w.index < c.index
  made : c.index < g.wrappers.size

theorem child_gives (hf : f.Placed) (hw : w.index < f.wrappers.size) (key : String) :
    ((f.nodeAt w).children.get? key = none ∧ f.child w key = (none, f)) ∨
      ∃ c g, f.child w key = (some c, g) ∧ Gives w key f c g := by
  have hgives : ∀ c g, f.child w key = (some c, g) → Gives w key f c g := by
    intro c g hchild
    have hb := Roamed.of_child hf hw key
    have hplaced := hf.child hw key
    have hnode := ((f.child_keeps hw key).1 c (by rw [hchild])).2
    rw [hchild] at hb hplaced hnode
    have hasks := hf.toKept.asks hw hchild
    exact ⟨hb, hplaced, hasks.beyond.store, .child hasks.cache hasks.node (.here c), hnode, hasks.after,
      hasks.made⟩
  rcases f.child_cases w key with h | ⟨c, -, -, e⟩ | ⟨r, -, e⟩
  · exact .inl h
  · exact .inr ⟨c, f, e, hgives _ _ e⟩
  · exact .inr ⟨_, _, e, hgives _ _ e⟩

/-- A path goes on from the child as it goes on from the wrapper after the key. -/
theorem Gives.follow_eq (h : Gives w key f c g) (p : Path) :
    f.store.follow (f.wrapper w).node (key :: p) = g.store.follow (g.wrapper c).node p := by
  have hnode : (f.store.node (f.wrapper w).node).children.get? key = some (g.wrapper c).node :=
    h.node
  rw [Store.follow, hnode, h.store]
  rfl

/-- Going down a path is browsing, and it leads somewhere if the nodes do. -/
theorem descend_roams (hf : f.Placed) (hw : w.index < f.wrappers.size) (p : Path) :
    Roamed w f (f.descend w p).2 ∧
      ((∃ c, (f.descend w p).1 = some c ∧ (f.descend w p).2.Along w p c) ∨
        (f.descend w p).1 = none ∧ f.store.follow (f.wrapper w).node p = none) := by
  induction p generalizing f w with
  | nil => exact ⟨.refl f w, .inl ⟨w, rfl, .here w⟩⟩
  | cons key rest ih =>
    rw [descend]
    rcases child_gives hf hw key with ⟨hnone, e⟩ | ⟨c, g, e, hgives⟩ <;> rw [e]
    · refine ⟨.refl f w, .inr ⟨rfl, ?_⟩⟩
      rw [nodeAt] at hnone
      rw [Store.follow, hnone]
      rfl
    · obtain ⟨hrest, hfound⟩ := ih hgives.placed hgives.made
      have hrest := hrest.of_le (Nat.le_of_lt hgives.after)
      refine ⟨hgives.roamed.trans hrest, hfound.imp ?_ ?_⟩
      · rintro ⟨d, hd, halong⟩
        exact ⟨d, hd, (hrest.along hgives.along).append halong⟩
      · rintro ⟨hd, hfollow⟩
        exact ⟨hd, (hgives.follow_eq rest).trans hfollow⟩

end Forest

/-! ### Where reads start -/

variable {σ : Type} {x : World σ} {w : WrapperRef}

theorem TreeM.updateForest_eq {α : Type} {k : Forest → α × Forest} {a : α} {g : Forest}
    (h : k x.forest = (a, g)) : TreeM.updateForest k x = .ok a (x.withForest g) := by
  have hrun : TreeM.updateForest k x = .ok (k x.forest).1 (x.withForest (k x.forest).2) := rfl
  rw [hrun, h]

/-- Whether a wrapper is alive, and nothing that it and its ancestors stand for has cycles. -/
structure World.Stands (x : World σ) (w : WrapperRef) : Prop where
  made : w.index < x.forest.wrappers.size
  live : (x.forest.wrapper w).destroyed = false
  grounded : ∀ a ∈ w :: x.forest.ancestors w,
    x.forest.store.Grounded (.node (x.forest.wrapper a).node)

theorem World.Sound.own_standard (hx : x.Sound) (w : WrapperRef) :
    Seat.OwnStandard (x.forest.own w) := by
  intro q g hg
  rcases x.forest.along_or_own_eq_none w q with ⟨c, hc⟩ | hnone
  · rw [Forest.own_of_along hc] at hg
    exact hx.standard c g hg
  · rw [hnone] at hg
    cases hg

namespace World.Stands

theorem node (hw : x.Stands w) : x.forest.store.Grounded (.node (x.forest.wrapper w).node) :=
  hw.grounded w List.mem_cons_self

theorem seat_grounded (hw : x.Stands w) (hx : x.Sound) :
    (x.forest.seat w).Grounded x.forest.store := by
  refine Forest.seat_grounded hx.arises.kept.toOrdered hw.grounded fun g hg => ?_
  obtain ⟨a, -, ha⟩ := List.exists_of_findSome?_eq_some hg
  exact hx.standard a g ha

theorem endsWithin (hw : x.Stands w) (hs : x.forest.store.WellFormed) :
    EndsWithin x.forest.store.held (x.forest.store.nodes.size + 1) (x.forest.wrapper w).node :=
  Store.endsWithin_nodes_of_parts (hw.node.ends hs)

section

variable {z : World σ} {v : WrapperRef} {p : Path} (hw : x.Stands w)
  (hb : Forest.Browsed w x.forest z.forest) (halong : z.forest.Along w p v)

include hw hb halong

/-- What is met further down is alive, and nothing that it goes by has cycles. -/
theorem live_along : (z.forest.wrapper v).destroyed = false :=
  halong.live hb.arises.lively (hb.unmoved.destroyed.trans hw.live)

theorem seat_grounded_along (hx : x.Sound) : (z.forest.seat v).Grounded x.forest.store :=
  (hw.seat_grounded hx).along hx.wellFormed (hx.own_standard w)
    (hb.seat_along hx.arises.kept.toOrdered hw.live halong)

end

end World.Stands

/-! ### Wrappers at seats -/

variable {p : Seat} {own : Path → Option Registry}

/-- Whether a wrapper has a seat, the kept wrappers on all ways down from it are alive, and
registries of their own are known for the wrappers below, all with standard operators. -/
structure World.Seated (x : World σ) (w : WrapperRef) (p : Seat) (own : Path → Option Registry) :
    Prop where
  arises : x.forest.Arises true
  made : w.index < x.forest.wrappers.size
  thrives : x.forest.Thrives w
  seat : x.forest.seat w = p
  registries : x.forest.own w = own
  standard : p.Standard
  ownStandard : Seat.OwnStandard own

namespace World.Seated

variable {x y : World σ} {w c : WrapperRef} {key : String}

theorem live (h : x.Seated w p own) : (x.forest.wrapper w).destroyed = false :=
  h.thrives [] w (.here w)

theorem roamed (h : x.Seated w p own) (hb : Forest.Roamed w x.forest y.forest) :
    y.Seated w p own where
  arises := hb.arises true h.arises
  made := hb.made h.made
  thrives := hb.thrives w (Nat.le_refl _) h.thrives
  seat := (hb.seat h.arises.kept.toOrdered).trans h.seat
  registries := (hb.own w (Nat.le_refl _)).trans h.registries
  standard := h.standard
  ownStandard := h.ownStandard

theorem nodeAt_eq (h : x.Seated w p own) : x.forest.nodeAt w = x.forest.store.node p.node := by
  rw [← h.seat]
  rfl

/-- A kept wrapper for a child has the seat of the child. -/
theorem child (h : x.Seated w p own) (hkept : (x.forest.wrapper w).cache.get? key = some c)
    (hnode : (x.forest.nodeAt w).children.get? key = some (x.forest.wrapper c).node) :
    x.Seated c (p.child (x.forest.wrapper c).node (own [key])) fun q => own (key :: q) where
  arises := h.arises
  made := h.arises.kept.cached_lt w c (Entries.mem_values_of_get? hkept)
  thrives := h.thrives.along (.child hkept hnode (.here c))
  seat := by
    have hlive := h.thrives _ c (.child hkept hnode (.here c))
    have hparent := (h.arises.kept.place w key c hkept hlive).1
    rw [Forest.seat_of_parent h.arises.kept.toOrdered hparent, h.seat, ← h.registries,
      Forest.own_cons hkept hnode, Forest.own]
  registries := by
    rw [← h.registries]
    exact funext fun q => (Forest.own_cons hkept hnode).symm
  standard := h.standard.child (h.ownStandard [key]) _
  ownStandard q := h.ownStandard (key :: q)

/-- Kept wrappers down a path have the seat that the path leads to. -/
theorem along {path : Path} {q : Seat} (h : x.Seated w p own) (halong : x.forest.Along w path c)
    (hq : Seat.along x.forest.store path p own = some q) :
    x.Seated c q fun r => own (path ++ r) := by
  induction halong generalizing p own with
  | here =>
    cases hq
    exact h
  | @child w c d key rest hkept hnode _ ih =>
    rw [Seat.along, ← h.nodeAt_eq, hnode] at hq
    exact ih (h.child hkept hnode) hq

/-- The wrapper that is given for a child has the seat of the child. -/
theorem given (h : x.Seated w p own) (hg : Forest.Gives w key x.forest c y.forest) {r : NodeRef}
    (hr : (x.forest.nodeAt w).children.get? key = some r) :
    y.Seated c (p.child r (own [key])) fun q => own (key :: q) := by
  refine (h.roamed hg.roamed).along hg.along ?_
  rw [Seat.along, hg.store, ← h.nodeAt_eq, hr]
  rfl

end World.Seated

theorem World.Stands.seated {x : World σ} {w : WrapperRef} (hw : x.Stands w) (hx : x.Sound) :
    x.Seated w (x.forest.seat w) (x.forest.own w) where
  arises := hx.arises.weaken true
  made := hw.made
  thrives := hx.arises.lively.thrives hw.live
  seat := rfl
  registries := rfl
  standard := (hw.seat_grounded hx).standard
  ownStandard := hx.own_standard w

/-! ### What a path leads to -/

namespace TreeM

variable {α : Type}

/-- What an operation gives on the wrapper that a path leads to, if it leads to one. -/
def onPath (m : WrapperRef → TreeM σ α) (w : WrapperRef) (path : Path) : TreeM σ (Option α) := do
  match ← descend w path with
  | none => return none
  | some c => do
    let a ← m c
    return some a

theorem some_eq_ok_iff {m : TreeM σ α} {a : α} {x y : World σ} :
    (m >>= fun a => pure (some a)) x = .ok (some a) y ↔ m x = .ok a y := by
  cases h : m x with
  | ok b z =>
    rw [bind_of_ok h]
    constructor <;> rintro ⟨⟩ <;> rfl
  | error e z =>
    rw [bind_of_error h]
    constructor <;> rintro ⟨⟩

end TreeM

/-- An operation at the end of a path is done on a wrapper with the seat that the path leads to. -/
theorem World.Seated.onPath {path : Path} {q : Seat} (h : x.Seated w p own)
    (hq : Seat.along x.forest.store path p own = some q) :
    ∃ c y, Forest.Roamed w x.forest y.forest ∧ y.forest.store = x.forest.store ∧
      y.forest.Along w path c ∧ y.Seated c q (fun r => own (path ++ r)) ∧
      ∀ {α : Type} (m : WrapperRef → TreeM σ α) a u,
        TreeM.onPath m w path x = .ok (some a) u ↔ m c y = .ok a u := by
  obtain ⟨hb, ⟨c, hc, halong⟩ | ⟨-, hnone⟩⟩ := Forest.descend_roams h.arises.placed h.made path
  · have hdescend : (TreeM.descend w path : TreeM σ _) x =
        .ok (some c) (x.withForest (x.forest.descend w path).2) :=
      TreeM.updateForest_eq (Prod.ext hc rfl)
    have hstore : (x.forest.descend w path).2.store = x.forest.store := x.forest.store_descend w path
    refine ⟨c, x.withForest (x.forest.descend w path).2, hb, hstore, halong,
      (h.roamed hb).along halong (by rw [← hq, ← hstore]; rfl), fun m a u => ?_⟩
    rw [TreeM.onPath, bind_of_ok hdescend]
    exact TreeM.some_eq_ok_iff
  · have hsome := Seat.isSome_along x.forest.store path p own
    rw [hq, ← h.seat, show (x.forest.seat w).node = (x.forest.wrapper w).node from rfl,
      hnone] at hsome
    cases hsome

end LiveTree
