import LiveTree.Tree.Visit
import LiveTree.Proofs.Reads.Browsing
import LiveTree.Proofs.Reads.Orders

/-! Visits of a subtree that keeps its shape. Each of the three ways to go through it meets the paths
in one of the orders, one after another, until the visitor stops the visit or fails. In between,
wrappers are asked for children, more or less ahead of when these are visited; nothing else
happens. -/

open Relation

namespace LiveTree

variable {σ β : Type}

section

variable {s t : Store} {r : NodeRef}

/-- Paths go by the children of the nodes on the way. -/
theorem Store.follow_congr (h : ∀ p q, s.follow r p = some q →
    (t.node q).children = (s.node q).children) (p : Path) : t.follow r p = s.follow r p := by
  induction p generalizing r with
  | nil => rfl
  | cons key rest ih =>
    rw [follow, follow, h [] r rfl]
    cases hc : (s.node r).children.get? key with
    | none => rfl
    | some c => exact ih fun p q hq => h (key :: p) q (by rw [follow, hc]; exact hq)

end

namespace Forest

variable {f g h : Forest} {w v c : WrapperRef} {p : Path}

theorem Along.follow_eq (h : f.Along w p c) :
    f.store.follow (f.wrapper w).node p = some (f.wrapper c).node := by
  induction h with
  | here => rfl
  | child _ hnode _ ih =>
    rw [nodeAt] at hnode
    rw [Store.follow, hnode]
    exact ih

/-- What a visitor that changes nothing leaves as it is: the children of all nodes of the subtree
below a wrapper, and the wrappers that are kept for them. -/
structure Undisturbed (w : WrapperRef) (f g : Forest) : Prop where
  arises : f.Arises true → g.Arises true
  has : ∀ r, f.store.Has (.node r) → g.store.Has (.node r)
  size_le : f.wrappers.size ≤ g.wrappers.size
  lasts : Lasts w f g
  children : ∀ p r, f.store.follow (f.wrapper w).node p = some r →
    (g.store.node r).children = (f.store.node r).children

namespace Undisturbed

theorem refl (w : WrapperRef) (f : Forest) : Undisturbed w f f :=
  ⟨id, fun _ hr => hr, Nat.le_refl _, .refl w f, fun _ _ _ => rfl⟩

theorem node (h : Undisturbed w f g) (hv : f.Along w p v) : (g.wrapper v).node = (f.wrapper v).node :=
  (h.lasts.unmoved p v hv).node

theorem follow_eq (h : Undisturbed w f g) (p : Path) :
    g.store.follow (g.wrapper w).node p = f.store.follow (f.wrapper w).node p := by
  rw [h.node (.here w)]
  exact Store.follow_congr h.children p

theorem trans (hfg : Undisturbed w f g) (hgh : Undisturbed w g h) : Undisturbed w f h where
  arises hf := hgh.arises (hfg.arises hf)
  has r hr := hgh.has r (hfg.has r hr)
  size_le := Nat.le_trans hfg.size_le hgh.size_le
  lasts := hfg.lasts.trans hgh.lasts
  children p r hr := by
    rw [hgh.children p r ((hfg.follow_eq p).trans hr), hfg.children p r hr]

/-- A wrapper that a path leads to has the children that are there from the start. -/
theorem children_along (h : Undisturbed w f g) (hv : g.Along w p v) :
    (g.nodeAt v).children = (f.store.node (g.wrapper v).node).children :=
  h.children p _ ((h.follow_eq p).symm.trans hv.follow_eq)

theorem of_roamed (h : Roamed w f g) : Undisturbed w f g where
  arises := h.arises true
  has _ hr := h.later.cells.has hr
  size_le := h.size_le
  lasts := h.lasts w (Nat.le_refl _)
  children _ r _ := by rw [Store.node_eq_of_nodes h.nodes]

end Undisturbed

end Forest

/-- Whether a wrapper at or below another has been asked for a child. -/
def World.Asks (w : WrapperRef) (x y : World σ) : Prop :=
  ∃ p v key, x.forest.Along w p v ∧ y = x.withForest (x.forest.child v key).2

/-- Whether a visitor leaves what a visit goes by wherever the visit may come to. It may fail. -/
def World.Preserving (x : World σ) (w : WrapperRef) (visit : Visitor σ β) : Prop :=
  ∀ y z p c b a, x.forest.Undisturbed w y.forest → y.forest.Along w p c → visit b c p y = .ok a z →
    y.forest.Undisturbed w z.forest

/-! ### What happens on a visit -/

/-- One visit: where, and what the visitor said. -/
structure Visit (β : Type) where
  wrapper : WrapperRef
  path : Path
  result : Except Fault (ForInStep β)

/-- Whether the visitor neither stopped nor failed. -/
def Visit.Passes (v : Visit β) : Prop := ∃ b, v.result = .ok (.yield b)

/-- How a visit of many paths ends: it has come to the end of them, has been stopped, or the visitor
has failed. -/
inductive Ending (σ β : Type) where
  | finished (b : β) (z : World σ)
  | stopped (b : β) (z : World σ)
  | failed (e : Fault) (z : World σ)

namespace Ending

/-- What a visit gives that ends in a way. -/
def result : Ending σ β → EStateM.Result Fault (World σ) β
  | finished b z => .ok b z
  | stopped b z => .ok b z
  | failed e z => .error e z

/-- What a part of a visit gives that ends in a way. -/
def step : Ending σ β → EStateM.Result Fault (World σ) (ForInStep β)
  | finished b z => .ok (.yield b) z
  | stopped b z => .ok (.done b) z
  | failed e z => .error e z

end Ending

section

variable (visit : Visitor σ β) (w : WrapperRef)

/-- Whether visiting paths below a wrapper one after another, each at the wrapper that it leads to at
the time, until the visitor stops or fails, makes these visits and ends in a way. In between, wrappers
may be asked for children. -/
inductive Visiting : List Path → β → World σ → List (Visit β) → Ending σ β → Prop
  | finished (b : β) (x : World σ) : Visiting [] b x [] (.finished b x)
  | asked {paths : List Path} {b : β} {x y : World σ} {l : List (Visit β)} {e : Ending σ β}
      (hasks : ReflTransGen (World.Asks w) x y) (h : Visiting paths b y l e) : Visiting paths b x l e
  | passed {paths : List Path} {b b' : β} {x y : World σ} {l : List (Visit β)} {e : Ending σ β}
      {c : WrapperRef} {p : Path} (hc : x.forest.Along w p c)
      (hvisit : visit b c p x = .ok (.yield b') y) (h : Visiting paths b' y l e) :
      Visiting (p :: paths) b x (⟨c, p, .ok (.yield b')⟩ :: l) e
  | stopped {paths : List Path} {b b' : β} {x y : World σ} {c : WrapperRef} {p : Path}
      (hc : x.forest.Along w p c) (hvisit : visit b c p x = .ok (.done b') y) :
      Visiting (p :: paths) b x [⟨c, p, .ok (.done b')⟩] (.stopped b' y)
  | failed {paths : List Path} {b : β} {x y : World σ} {c : WrapperRef} {p : Path} {e : Fault}
      (hc : x.forest.Along w p c) (hvisit : visit b c p x = .error e y) :
      Visiting (p :: paths) b x [⟨c, p, .error e⟩] (.failed e y)

/-- Whether a part of a visit goes through paths. -/
def Visits (paths : List Path) (b : β) (x : World σ)
    (r : EStateM.Result Fault (World σ) (ForInStep β)) : Prop :=
  ∃ l e, r = e.step ∧ Visiting visit w paths b x l e

end

/-- Whether visits are those of the first of some paths, up to the first that does not pass. -/
structure Initial (order : List Path) (l : List (Visit β)) : Prop where
  isPrefix : l.map Visit.path <+: order
  passes : ∀ v ∈ l.dropLast, v.Passes
  whole : (∀ v ∈ l, v.Passes) → l.map Visit.path = order

namespace Visiting

variable {visit : Visitor σ β} {w : WrapperRef} {paths paths' : List Path} {b b' : β}
  {x y z : World σ} {l l' : List (Visit β)} {e : Ending σ β}

theorem initial (h : Visiting visit w paths b x l e) : Initial paths l := by
  induction h with
  | finished => exact ⟨List.prefix_rfl, nofun, fun _ => rfl⟩
  | asked _ _ ih => exact ih
  | @passed paths b b' x y l e c p _ _ _ ih =>
    refine ⟨(List.prefix_cons_inj _).mpr ih.isPrefix, fun v hv => ?_, fun hall => ?_⟩
    · cases l with
      | nil => cases hv
      | cons v' rest =>
        rcases List.mem_cons.mp hv with rfl | hv
        · exact ⟨_, rfl⟩
        · exact ih.passes v hv
    · rw [List.map_cons, ih.whole fun v hv => hall v (List.mem_cons_of_mem _ hv)]
  | stopped =>
    refine ⟨by simp, nofun, fun hall => ?_⟩
    obtain ⟨a, ha⟩ := hall _ List.mem_cons_self
    cases ha
  | failed =>
    refine ⟨by simp, nofun, fun hall => ?_⟩
    obtain ⟨a, ha⟩ := hall _ List.mem_cons_self
    cases ha

theorem append (h : Visiting visit w paths b x l (.finished b' y))
    (h' : Visiting visit w paths' b' y l' e) :
    Visiting visit w (paths ++ paths') b x (l ++ l') e := by
  generalize hend : Ending.finished b' y = e₀ at h
  induction h with
  | finished =>
    cases hend
    exact h'
  | asked hasks _ ih => exact .asked hasks (ih hend)
  | passed hc hvisit _ ih => exact .passed hc hvisit (ih hend)
  | stopped => cases hend
  | failed => cases hend

/-- A visit that has ended before is not gone on with. -/
theorem ended (h : Visiting visit w paths b x l e) (hend : ∀ b y, e ≠ .finished b y)
    (paths' : List Path) : Visiting visit w (paths ++ paths') b x l e := by
  induction h with
  | finished b x => exact absurd rfl (hend b x)
  | asked hasks _ ih => exact .asked hasks (ih hend)
  | passed hc hvisit _ ih => exact .passed hc hvisit (ih hend)
  | stopped hc hvisit => exact .stopped hc hvisit
  | failed hc hvisit => exact .failed hc hvisit

end Visiting

namespace Forest.Undisturbed

variable {x y z : World σ} {w : WrapperRef} {visit : Visitor σ β}

section

variable (hx : x.forest.Arises true) (hw : w.index < x.forest.wrappers.size)
  (h : x.forest.Undisturbed w y.forest)

include hx hw h

theorem made {p : Path} {v : WrapperRef} (hv : y.forest.Along w p v) :
    v.index < y.forest.wrappers.size :=
  hv.made (h.arises hx).kept.toOrdered (Nat.lt_of_lt_of_le hw h.size_le)

theorem asks (hasks : World.Asks w y z) : y.forest.Undisturbed w z.forest := by
  obtain ⟨p, v, key, hv, rfl⟩ := hasks
  have hplaced := (h.arises hx).placed
  exact of_roamed ((Roamed.of_child hplaced (h.made hx hw hv) key).of_le
    (hv.index_le hplaced.toKept))

theorem asked (hasks : ReflTransGen (World.Asks w) y z) : y.forest.Undisturbed w z.forest := by
  induction hasks with
  | refl => exact .refl w y.forest
  | tail _ hstep ih => exact ih.trans ((h.trans ih).asks hx hw hstep)

/-- The shape stays in the course of a visit. -/
theorem visiting (hvisit : x.Preserving w visit) {paths : List Path} {b b' : β} {l : List (Visit β)}
    (hv : Visiting visit w paths b y l (.finished b' z)) : y.forest.Undisturbed w z.forest := by
  generalize hend : Ending.finished b' z = e at hv
  induction hv with
  | finished =>
    cases hend
    exact .refl w z.forest
  | asked hasks _ ih =>
    have hstep := h.asked hx hw hasks
    exact hstep.trans (ih (h.trans hstep) hend)
  | passed hc hrun _ ih =>
    have hstep := hvisit _ _ _ _ _ _ h hc hrun
    exact hstep.trans (ih (h.trans hstep) hend)
  | stopped => cases hend
  | failed => cases hend

end

end Forest.Undisturbed

/-! ### Going down -/

namespace Visits

variable {visit : Visitor σ β} {w : WrapperRef} {paths paths' : List Path} {b : β}
  {x y : World σ} {p : Path} {c : WrapperRef} {n : ℕ}

theorem nil (b : β) (x : World σ) : Visits visit w [] b x (.ok (.yield b) x) :=
  ⟨[], .finished b x, rfl, .finished b x⟩

theorem asked {r : EStateM.Result Fault (World σ) (ForInStep β)} (hasks : World.Asks w x y)
    (h : Visits visit w paths b y r) : Visits visit w paths b x r := by
  obtain ⟨l, e, hr, h⟩ := h
  exact ⟨l, e, hr, .asked (.single hasks) h⟩

/-- One visit. -/
theorem one (hc : x.forest.Along w p c) (b : β) : Visits visit w [p] b x (visit b c p x) := by
  cases hvisit : visit b c p x with
  | error f y => exact ⟨_, .failed f y, rfl, .failed hc hvisit⟩
  | ok a y =>
    cases a with
    | done b' => exact ⟨_, .stopped b' y, rfl, .stopped hc hvisit⟩
    | yield b' => exact ⟨_, .finished b' y, rfl, .passed hc hvisit (.finished b' y)⟩

/-- One part of a visit after another, if the first does not put an end to it. -/
theorem bind {m : TreeM σ (ForInStep β)} {k : ForInStep β → TreeM σ (ForInStep β)}
    (hm : Visits visit w paths b x (m x)) (hdone : ∀ b', k (.done b') = pure (.done b'))
    (hk : ∀ l b' z, Visiting visit w paths b x l (.finished b' z) →
      Visits visit w paths' b' z (k (.yield b') z)) :
    Visits visit w (paths ++ paths') b x ((m >>= k) x) := by
  obtain ⟨l, e, hrun, h⟩ := hm
  cases e with
  | finished b' z =>
    obtain ⟨l', e, hrest, h'⟩ := hk l b' z h
    exact ⟨l ++ l', e, (bind_of_ok hrun k).trans hrest, h.append h'⟩
  | stopped b' z =>
    refine ⟨l, .stopped b' z, ?_, h.ended nofun paths'⟩
    rw [bind_of_ok hrun, hdone]
    rfl
  | failed f z => exact ⟨l, .failed f z, bind_of_error hrun k, h.ended nofun paths'⟩

section

variable {x₀ : World σ} (hx : x₀.forest.Arises true) (hw : w.index < x₀.forest.wrappers.size)
  (hvisit : x₀.Preserving w visit)

include hx hw hvisit

/-- Going into children under their keys goes through the paths below them, if this is what going to
one child does. -/
theorem intoChildren {go : Visitor σ β} {order : NodeRef → List Path}
    (hgo : ∀ (y : World σ) b p c, x₀.forest.Undisturbed w y.forest → y.forest.Along w p c →
      EndsWithin x₀.forest.store.offspring n (y.forest.wrapper c).node →
      Visits visit w ((order (y.forest.wrapper c).node).map (p ++ ·)) b y (go b c p y))
    (hy : x₀.forest.Undisturbed w y.forest) (hc : y.forest.Along w p c)
    {entries : List (String × NodeRef)}
    (hentries : ∀ e ∈ entries, (y.forest.nodeAt c).children.get? e.1 = some e.2 ∧
      EndsWithin x₀.forest.store.offspring n e.2) (b : β) :
    Visits visit w ((entries.flatMap fun e => (order e.2).map (e.1 :: ·)).map (p ++ ·)) b y
      (TreeM.intoChildren go c p (entries.map Prod.fst) b y) := by
  induction entries generalizing y b with
  | nil => exact .nil b y
  | cons e rest ih =>
    obtain ⟨key, r⟩ := e
    obtain ⟨⟨hr, hend⟩, hrest⟩ := List.forall_mem_cons.mp hentries
    rcases Forest.child_gives (hy.arises hx).placed (hy.made hx hw hc) key with
      ⟨hnone, -⟩ | ⟨d, g, hchild, hgives⟩
    · cases hnone.symm.trans hr
    have hnode : (g.wrapper d).node = r := Option.some.inj (hgives.node.symm.trans hr)
    have hasks : World.Asks w y (y.withForest g) := ⟨p, c, key, hc, by rw [hchild]⟩
    have hstep := hy.asks hx hw hasks
    have hfirst := hgo (y.withForest g) b (p ++ [key]) d (hy.trans hstep)
      ((hstep.lasts.along p c hc).append hgives.along) (by
        show EndsWithin _ n (g.wrapper d).node
        rwa [hnode])
    have hpaths : (order (g.wrapper d).node).map (p ++ [key] ++ ·) =
        ((order r).map (key :: ·)).map (p ++ ·) := by
      rw [hnode, List.map_map]
      exact List.map_congr_left fun q _ => List.append_assoc p [key] q
    rw [List.flatMap_cons, List.map_append, ← hpaths]
    have hask : (TreeM.updateForest (·.child c key) : TreeM σ _) y = .ok (some d) (y.withForest g) :=
      TreeM.updateForest_eq hchild
    refine .asked hasks ?_
    rw [List.map_cons, TreeM.intoChildren, bind_of_ok hask]
    refine hfirst.bind (fun _ => rfl) fun l b' z hl => ?_
    have hbelow := hstep.trans ((hy.trans hstep).visiting hx hw hvisit hl)
    refine ih (hy.trans hbelow) (hbelow.lasts.along p c hc) (fun e he => ?_) b'
    have hz := (hy.trans hbelow).children_along (hbelow.lasts.along p c hc)
    rw [hbelow.node hc, ← hy.children_along hc] at hz
    rw [hz]
    exact hrest e he

theorem children {go : Visitor σ β} {order : NodeRef → List Path}
    (hgo : ∀ (y : World σ) b p c, x₀.forest.Undisturbed w y.forest → y.forest.Along w p c →
      EndsWithin x₀.forest.store.offspring n (y.forest.wrapper c).node →
      Visits visit w ((order (y.forest.wrapper c).node).map (p ++ ·)) b y (go b c p y))
    (hy : x₀.forest.Undisturbed w y.forest) (hc : y.forest.Along w p c)
    (hn : EndsWithin x₀.forest.store.offspring (n + 1) (y.forest.wrapper c).node) (b : β) :
    Visits visit w (((x₀.forest.store.node (y.forest.wrapper c).node).children.toList.flatMap fun e =>
      (order e.2).map (e.1 :: ·)).map (p ++ ·)) b y
      ((TreeM.childKeys c >>= fun keys => TreeM.intoChildren go c p keys b) y) := by
  have hkeys : (TreeM.childKeys c : TreeM σ _) y =
      .ok ((x₀.forest.store.node (y.forest.wrapper c).node).children.toList.map Prod.fst) y := by
    rw [← hy.children_along hc]
    rfl
  rw [bind_of_ok hkeys]
  refine intoChildren hx hw hvisit hgo hy hc (fun e he => ⟨?_, hn e.2 (Store.mem_offspring he)⟩) b
  rw [hy.children_along hc]
  exact Entries.get?_eq_some_iff.mpr he

/-- Visiting parents before children goes through the paths in this order. -/
theorem preOrderTo (hy : x₀.forest.Undisturbed w y.forest) (hc : y.forest.Along w p c)
    (hn : EndsWithin x₀.forest.store.offspring n (y.forest.wrapper c).node) (b : β) :
    Visits visit w ((x₀.forest.store.pathsTo n (y.forest.wrapper c).node).map (p ++ ·)) b y
      (TreeM.preOrderTo visit n b c p y) := by
  induction n generalizing y p c b with
  | zero => exact hn.elim
  | succ n ih =>
    rw [Store.pathsTo, List.map_cons, List.append_nil]
    have hone : Visits visit w [p] b y _ := one hc b
    refine hone.bind (fun _ => rfl) fun l b' z hl => ?_
    have hstep := hy.visiting hx hw hvisit hl
    have hbelow := children hx hw hvisit (fun y b p c hy hc hn => ih hy hc hn b) (hy.trans hstep)
      (hstep.lasts.along p c hc) (by rwa [hstep.node hc]) b'
    rwa [hstep.node hc] at hbelow

/-- Visiting children before parents goes through the paths in this order. -/
theorem postOrderTo (hy : x₀.forest.Undisturbed w y.forest) (hc : y.forest.Along w p c)
    (hn : EndsWithin x₀.forest.store.offspring n (y.forest.wrapper c).node) (b : β) :
    Visits visit w ((x₀.forest.store.ascendingTo n (y.forest.wrapper c).node).map (p ++ ·)) b y
      (TreeM.postOrderTo visit n b c p y) := by
  induction n generalizing y p c b with
  | zero => exact hn.elim
  | succ n ih =>
    rw [Store.ascendingTo, List.map_append, List.map_singleton, List.append_nil]
    have hbelow := children hx hw hvisit (fun y b p c hy hc hn => ih hy hc hn b) hy hc hn b
    refine hbelow.bind (fun _ => rfl) fun l b' z hl => ?_
    exact one ((hy.visiting hx hw hvisit hl).lasts.along p c hc) b'

/-! ### Level by level -/

omit hvisit in
/-- Looking up the children of a wrapper asks for all of them. -/
theorem childrenWithPaths (hy : x₀.forest.Undisturbed w y.forest) (hc : y.forest.Along w p c)
    {entries : List (String × NodeRef)}
    (hentries : ∀ e ∈ entries, (y.forest.nodeAt c).children.get? e.1 = some e.2) :
    ∃ l z, TreeM.childrenWithPaths c p (entries.map Prod.fst) y = .ok l z ∧
      ReflTransGen (World.Asks w) y z ∧ l.map Prod.snd = entries.map (p ++ [·.1]) ∧
      ∀ e ∈ l, z.forest.Along w e.2 e.1 := by
  induction entries generalizing y with
  | nil => exact ⟨[], y, rfl, .refl, rfl, nofun⟩
  | cons e rest ih =>
    obtain ⟨key, r⟩ := e
    obtain ⟨hr, hrest⟩ := List.forall_mem_cons.mp hentries
    rcases Forest.child_gives (hy.arises hx).placed (hy.made hx hw hc) key with
      ⟨hnone, -⟩ | ⟨d, g, hchild, hgives⟩
    · cases hnone.symm.trans hr
    have hasks : World.Asks w y (y.withForest g) := ⟨p, c, key, hc, by rw [hchild]⟩
    have hstep := hy.asks hx hw hasks
    have hcg := hstep.lasts.along p c hc
    obtain ⟨l, z, hrun, hall, hpaths, halong⟩ := ih (hy.trans hstep) hcg fun e he => by
      rw [(hy.trans hstep).children_along hcg, hstep.node hc, ← hy.children_along hc]
      exact hrest e he
    have hz := ((hy.trans hstep).asked hx hw hall).lasts
    refine ⟨(d, p ++ [key]) :: l, z, ?_, .head hasks hall, congrArg _ hpaths,
      List.forall_mem_cons.mpr ⟨hz.along _ d (hcg.append hgives.along), halong⟩⟩
    have hask : (TreeM.updateForest (·.child c key) : TreeM σ _) y = .ok (some d) (y.withForest g) :=
      TreeM.updateForest_eq hchild
    exact (bind_of_ok hask _).trans (bind_of_ok hrun _)

/-- Visiting the wrappers of a level goes through their paths, and comes to their children if it is
not stopped. -/
theorem visitLevel (hy : x₀.forest.Undisturbed w y.forest) {level next : List (WrapperRef × Path)}
    (hlevel : ∀ e ∈ level, y.forest.Along w e.2 e.1)
    (hnext : ∀ e ∈ next, y.forest.Along w e.2 e.1) :
    ∃ l e, Visiting visit w (level.map Prod.snd) b y l e ∧
      ((∃ b' z next', TreeM.visitLevel visit next level b y = .ok (.yield b', next') z ∧
        e = .finished b' z ∧ (∀ e ∈ next', z.forest.Along w e.2 e.1) ∧
        next'.map Prod.snd = next.map Prod.snd ++ (level.map Prod.snd).flatMap fun p =>
          (x₀.forest.store.keysAt (x₀.forest.wrapper w).node p).map fun key => p ++ [key]) ∨
      (∃ b' z next', TreeM.visitLevel visit next level b y = .ok (.done b', next') z ∧
        e = .stopped b' z) ∨
      ∃ f z, TreeM.visitLevel visit next level b y = .error f z ∧ e = .failed f z) := by
  induction level generalizing y next b with
  | nil => exact ⟨[], .finished b y, .finished b y, .inl ⟨b, y, next, rfl, rfl, hnext, by simp⟩⟩
  | cons e rest ih =>
    obtain ⟨c, p⟩ := e
    obtain ⟨hc, hrest⟩ := List.forall_mem_cons.mp hlevel
    obtain ⟨l, e, hrun, hl⟩ : Visits visit w [p] b y _ := one hc b
    cases e with
    | stopped b' z =>
      exact ⟨l, .stopped b' z, hl.ended nofun _, .inr (.inl ⟨b', z, next, bind_of_ok hrun _, rfl⟩)⟩
    | failed f z => exact ⟨l, .failed f z, hl.ended nofun _, .inr (.inr ⟨f, z, bind_of_error hrun _, rfl⟩)⟩
    | finished b' z =>
      have hstep := hy.visiting hx hw hvisit hl
      have hcz := hstep.lasts.along p c hc
      have hentries : ∀ e ∈ (z.forest.nodeAt c).children.toList,
          (z.forest.nodeAt c).children.get? e.1 = some e.2 := fun e he =>
        Entries.get?_eq_some_iff.mpr he
      obtain ⟨below, u, hbelow, hasked, hpaths, halong⟩ :=
        childrenWithPaths hx hw (hy.trans hstep) hcz hentries
      have hdown := hstep.trans ((hy.trans hstep).asked hx hw hasked)
      have hnext' : ∀ e ∈ next ++ below, u.forest.Along w e.2 e.1 :=
        List.forall_mem_append.mpr ⟨fun e he => hdown.lasts.along _ _ (hnext e he), halong⟩
      obtain ⟨l', e, hl', hends⟩ := ih (hy.trans hdown)
        (fun e he => hdown.lasts.along _ _ (hrest e he)) hnext'
      have hgo : TreeM.visitLevel visit next ((c, p) :: rest) b y =
          TreeM.visitLevel visit (next ++ below) rest b' u :=
        (bind_of_ok hrun _).trans (bind_of_ok hbelow _)
      have hkeys : below.map Prod.snd = (x₀.forest.store.keysAt (x₀.forest.wrapper w).node p).map
          fun key => p ++ [key] := by
        have hat : x₀.forest.store.keysAt (x₀.forest.wrapper w).node p =
            (x₀.forest.store.node (y.forest.wrapper c).node).children.keys := by
          rw [Store.keysAt, ← hy.follow_eq, hc.follow_eq]
        rw [hpaths, hat, (hy.trans hstep).children_along hcz, hstep.node hc, Entries.keys, List.map_map]
        rfl
      rw [hgo]
      refine ⟨l ++ l', e, hl.append (.asked hasked hl'), hends.imp_left ?_⟩
      rintro ⟨b', z', next', hz', he, halong', hnext'⟩
      refine ⟨b', z', next', hz', he, halong', ?_⟩
      rw [hnext', List.map_append, hkeys, List.append_assoc, List.map_cons, List.flatMap_cons]

/-- Visiting level by level, from one level on, goes through the paths of all further ones. -/
theorem levelOrderTo (hn : EndsWithin x₀.forest.store.offspring n (x₀.forest.wrapper w).node)
    (hy : x₀.forest.Undisturbed w y.forest) {j k : ℕ} (hj : n ≤ k + j)
    {level : List (WrapperRef × Path)} (hlevel : ∀ e ∈ level, y.forest.Along w e.2 e.1)
    (hpaths : level.map Prod.snd = x₀.forest.store.levelOf k (x₀.forest.wrapper w).node) :
    ∃ l e, TreeM.levelOrderTo visit j level b y = e.result ∧
      Visiting visit w ((List.range' k j).flatMap
        (x₀.forest.store.levelOf · (x₀.forest.wrapper w).node)) b y l e := by
  induction j generalizing y k level b with
  | zero =>
    rw [Store.levelOf_eq_nil hn (Nat.add_zero k ▸ hj)] at hpaths
    obtain rfl := List.map_eq_nil_iff.mp hpaths
    exact ⟨[], .finished b y, rfl, .finished b y⟩
  | succ j ih =>
    rw [List.range'_succ, List.flatMap_cons, ← hpaths]
    cases level with
    | nil =>
      -- there is nothing on any further level either
      have hnone : (List.range' (k + 1) j).flatMap
          (x₀.forest.store.levelOf · (x₀.forest.wrapper w).node) = [] :=
        List.flatMap_eq_nil_iff.mpr fun m hm =>
          Store.levelOf_eq_nil_of_le hpaths.symm (by have := List.mem_range'_1.mp hm; omega)
      rw [hnone]
      exact ⟨[], .finished b y, rfl, .finished b y⟩
    | cons e rest =>
      obtain ⟨l, e', hl, hends⟩ := visitLevel hx hw hvisit hy hlevel
        (List.forall_mem_nil _)
      rcases hends with ⟨b', z, next, hrun, rfl, hnext, hkeys⟩ | ⟨b', z, next, hrun, rfl⟩ |
        ⟨f, z, hrun, rfl⟩
      · have hstep := hy.visiting hx hw hvisit hl
        have hpaths' : next.map Prod.snd =
            x₀.forest.store.levelOf (k + 1) (x₀.forest.wrapper w).node := by
          rw [hkeys, hpaths, Store.levelOf_succ]
          rfl
        obtain ⟨l', e', hrest, hl'⟩ := ih (hy.trans hstep) (by omega) hnext hpaths'
        exact ⟨l ++ l', e', (bind_of_ok hrun _).trans hrest, hl.append hl'⟩
      · exact ⟨l, .stopped b' z, bind_of_ok hrun _, hl.ended nofun _⟩
      · exact ⟨l, .failed f z, bind_of_error hrun _, hl.ended nofun _⟩

end

end Visits

/-! ### The whole subtree -/

section

variable {visit : Visitor σ β} {w : WrapperRef} {x : World σ} {b : β}

/-- Whether a visit goes through paths in order, up to the first at which the visitor stops or
fails. -/
def Traverses (visit : Visitor σ β) (w : WrapperRef) (order : List Path) (b : β) (x : World σ)
    (r : EStateM.Result Fault (World σ) β) : Prop :=
  ∃ l e, r = e.result ∧ Visiting visit w order b x l e ∧ Initial order l

theorem Visits.traverses {order : List Path} {m : TreeM σ (ForInStep β)}
    (h : Visits visit w order b x (m x)) :
    Traverses visit w order b x ((do return (← m).value : TreeM σ β) x) := by
  obtain ⟨l, e, hrun, hl⟩ := h
  refine ⟨l, e, ?_, hl, hl.initial⟩
  cases e with
  | finished b' z => exact bind_of_ok hrun _
  | stopped b' z => exact bind_of_ok hrun _
  | failed f z => exact bind_of_error hrun _

variable (hx : x.forest.Arises true) (hw : w.index < x.forest.wrappers.size)
  (htree : Acyclic x.forest.store.offspring (x.forest.wrapper w).node)
  (hvisit : x.Preserving w visit)

include htree in
/-- A visit may go deeper than a tree without cycles does. -/
theorem endsWithin_visitDepth : EndsWithin x.forest.store.offspring
    (x.forest.store.nodes.size + TreeM.visitMargin) (x.forest.wrapper w).node :=
  (Store.endsWithin_offspring_nodes htree).mono (Nat.add_le_add_left (by decide) _)

include hx hw htree hvisit

theorem preOrder_traverses : Traverses visit w
    (x.forest.store.descending (x.forest.wrapper w).node) b x (TreeM.preOrder w b visit x) := by
  have h := Visits.preOrderTo hx hw hvisit (.refl w x.forest) (.here w)
    (endsWithin_visitDepth htree) b
  rw [Store.pathsTo_of_le (Store.endsWithin_offspring_nodes htree)
    (Nat.add_le_add_left (by decide) _)] at h
  exact Visits.traverses (by simpa [Store.descending] using h)

theorem postOrder_traverses : Traverses visit w
    (x.forest.store.ascending (x.forest.wrapper w).node) b x (TreeM.postOrder w b visit x) := by
  have h := Visits.postOrderTo hx hw hvisit (.refl w x.forest) (.here w)
    (endsWithin_visitDepth htree) b
  rw [Store.ascendingTo_of_le (Store.endsWithin_offspring_nodes htree)
    (Nat.add_le_add_left (by decide) _)] at h
  exact Visits.traverses (by simpa [Store.ascending] using h)

theorem levelOrder_traverses : Traverses visit w
    (x.forest.store.byLevel (x.forest.wrapper w).node) b x (TreeM.levelOrder w b visit x) := by
  have hlevel : ∀ e ∈ [(w, ([] : Path))], x.forest.Along w e.2 e.1 := by
    simp [Forest.Along.here]
  obtain ⟨l, e, hrun, hl⟩ := Visits.levelOrderTo hx hw hvisit (b := b) (endsWithin_visitDepth htree)
    (.refl w x.forest) (k := 0) (Nat.le_of_eq (Nat.zero_add _).symm) hlevel rfl
  rw [← List.range_eq_range', ← Store.byLevel_eq htree (Nat.add_le_add_left (by decide) _)] at hl
  exact ⟨l, e, hrun, hl, hl.initial⟩

end

end LiveTree
