import LiveTree.Proofs.Form.Equality
import LiveTree.Proofs.Form.Renewal
import LiveTree.Proofs.Reads.Visiting
import LiveTree.Proofs.Tree.Revision

/-! Resetting a whole subtree. On the way through it, parents before children, each node with a
default is given a copy of the default that it has by then; afterwards there is one announcement. A
default may lead to nodes of the subtree that are reset themselves. If all of them are reset before
it is copied, the values look like the defaults in the end, and resetting once more makes no
difference; if one of them comes later, neither needs to be the case. -/

open Relation

namespace LiveTree

namespace Store

variable {s t u : Store} {r q : NodeRef} {p : Path} {rs : List NodeRef} {n : ℕ}

/-! ### Subtrees -/

theorem reaches_parts (h : Reaches s.offspring r q) : Reaches s.parts (.node r) (.node q) :=
  h.closed (P := fun q => Reaches s.parts (.node r) (.node q)) (.refl _) fun x _ hx _ hy =>
    hx.below ((s.node x).entry_mem_parts .children hy)

theorem endsWithin_offspring_of_parts (h : EndsWithin s.parts n (.node r)) :
    EndsWithin s.offspring n r := by
  induction n generalizing r with
  | zero => exact h.elim
  | succ n ih => exact fun q hq => ih (h _ ((s.node r).entry_mem_parts .children hq))

/-- What is in a subtree is what paths lead to. -/
theorem reaches_iff_follow : Reaches s.offspring r q ↔ ∃ p, s.follow r p = some q := by
  constructor
  · refine fun h => h.closed (P := fun q => ∃ p, s.follow r p = some q) ⟨[], rfl⟩ ?_
    rintro x - ⟨p, hp⟩ y hy
    obtain ⟨key, hkey⟩ := Entries.mem_values_iff.mp hy
    refine ⟨p ++ [key], ?_⟩
    rw [follow_append, hp, Option.bind_some, follow, hkey]
    rfl
  · rintro ⟨p, hp⟩
    induction p generalizing r with
    | nil => exact Option.some.inj hp ▸ .refl r
    | cons key rest ih =>
      rw [follow] at hp
      cases hc : (s.node r).children.get? key with
      | none =>
        rw [hc] at hp
        cases hp
      | some c =>
        rw [hc] at hp
        exact (ih hp).of_below (Entries.mem_values_iff.mpr ⟨key, hc⟩)

/-! ### Defaults in a subtree -/

/-- Whether a node has a default. -/
def hasDefault (s : Store) (r : NodeRef) : Bool := !(s.node r).default.isNone

/-- Those of some paths that lead to nodes with defaults. -/
def toDefaults (s : Store) (r : NodeRef) (paths : List Path) : List Path :=
  paths.filter fun p => (s.follow r p).any s.hasDefault

/-- The nodes that paths lead to. -/
def targets (s : Store) (r : NodeRef) (paths : List Path) : List NodeRef :=
  paths.filterMap (s.follow r)

/-- The paths of a subtree that lead to nodes with defaults, parents before children. -/
def defaultPaths (s : Store) (r : NodeRef) : List Path := s.toDefaults r (s.descending r)

/-- The nodes of a subtree that have defaults, as they are come to, parents before children. -/
def defaultNodes (s : Store) (r : NodeRef) : List NodeRef := s.targets r (s.defaultPaths r)

theorem toDefaults_cons (s : Store) (r : NodeRef) (p : Path) (paths : List Path) :
    s.toDefaults r (p :: paths) = s.toDefaults r [p] ++ s.toDefaults r paths :=
  List.filter_append [p] paths

theorem targets_append (s : Store) (r : NodeRef) (paths paths' : List Path) :
    s.targets r (paths ++ paths') = s.targets r paths ++ s.targets r paths' :=
  List.filterMap_append

theorem mem_targets {paths : List Path} :
    q ∈ s.targets r paths ↔ ∃ p ∈ paths, s.follow r p = some q := List.mem_filterMap

theorem mem_defaultNodes (h : Acyclic s.offspring r) :
    q ∈ s.defaultNodes r ↔ Reaches s.offspring r q ∧ s.hasDefault q = true := by
  have hdescending : ∀ p, p ∈ s.descending r ↔ (s.follow r p).isSome :=
    (orders_complete h List.mem_cons_self).2
  rw [defaultNodes, mem_targets, reaches_iff_follow]
  constructor
  · rintro ⟨p, hp, hq⟩
    have hdefault := (List.mem_filter.mp hp).2
    rw [hq] at hdefault
    exact ⟨⟨p, hq⟩, hdefault⟩
  · rintro ⟨⟨p, hp⟩, hq⟩
    refine ⟨p, List.mem_filter.mpr ⟨(hdescending p).mpr (by rw [hp]; rfl), ?_⟩, hp⟩
    rw [hp]
    exact hq

theorem toDefaults_congr (hfollow : ∀ p, t.follow r p = s.follow r p)
    (hdefault : ∀ p q, s.follow r p = some q → (t.node q).default = (s.node q).default)
    (paths : List Path) : t.toDefaults r paths = s.toDefaults r paths := by
  refine List.filter_congr fun p _ => ?_
  rw [hfollow]
  cases hq : s.follow r p with
  | none => rfl
  | some q => rw [Option.any_some, Option.any_some, hasDefault, hdefault p q hq, hasDefault]

theorem targets_congr (hfollow : ∀ p, t.follow r p = s.follow r p) (paths : List Path) :
    t.targets r paths = s.targets r paths :=
  List.filterMap_congr fun p _ => hfollow p

theorem has_follow (hs : s.WellFormed) (hr : s.Has (.node r)) (h : s.follow r p = some q) :
    s.Has (.node q) := hs.has_reached hr (reaches_parts (reaches_iff_follow.mpr ⟨p, h⟩))

namespace Renewed

variable (h : s.Renewed q t) (hs : s.WellFormed) (hq : s.Has (.node q)) (hr : s.Has (.node r))

include h hs hq hr

theorem follow_eq (p : Path) : t.follow r p = s.follow r p :=
  Store.follow_congr (fun _ _ hp => (h.keepsChildren hq _ (has_follow hs hr hp)).2) p

theorem toDefaults_eq (paths : List Path) : t.toDefaults r paths = s.toDefaults r paths := by
  refine toDefaults_congr (h.follow_eq hs hq hr) (fun _ _ hp => ?_) paths
  obtain ⟨v, hv⟩ := h.node hq (has_follow hs hr hp)
  rw [hv]

end Renewed

/-- In a subtree some nodes of which have been renewed, the same nodes have defaults. -/
theorem Renewing.mem_defaultNodes {done : NodeRef → Prop} (h : Renewing s done t)
    (hs : s.WellFormed) (hr : s.Has (.node r)) (hend : EndsWithin s.parts n (.node r)) :
    q ∈ t.defaultNodes r ↔ q ∈ s.defaultNodes r := by
  have hfollow : ∀ p, t.follow r p = s.follow r p := Store.follow_congr fun _ q hq => by
    obtain ⟨v, hv⟩ := h.node q (has_follow hs hr hq)
    rw [hv]
  have hendt := h.endsWithin n _ hr hend
  rw [Store.mem_defaultNodes (endsWithin_offspring_of_parts hend).acyclic,
    Store.mem_defaultNodes (endsWithin_offspring_of_parts hendt).acyclic, reaches_iff_follow,
    reaches_iff_follow]
  simp only [hfollow]
  refine and_congr_right fun ⟨p, hp⟩ => ?_
  rw [hasDefault, hasDefault, h.default_eq (has_follow hs hr hp)]

end Store

/-! ### The visitor -/

section

variable {σ ν : Type} {w c : WrapperRef} {p : Path} {x y : World σ}

/-- Resets a node on the way through a subtree, if it has a default, and keeps the path. -/
def Revision.resetting : Visitor σ (List Path) := fun changed c path => do
  if ← TreeM.hasDefault c then
    let _ ← applyReset c true
    return .yield (changed ++ [path])
  else return .yield changed

theorem TreeM.hasDefault_eq (w : WrapperRef) (x : World σ) :
    TreeM.hasDefault w x = .ok (x.forest.store.hasDefault (x.forest.wrapper w).node) x := rfl

namespace Revision

section

variable (hlive : (x.forest.wrapper w).destroyed = false)
  (hdefault : x.forest.store.hasDefault (x.forest.wrapper w).node = true) {m : Store}

include hlive hdefault

theorem applyReset_of_copied {v : Value}
    (hcopy : copyValue (x.forest.nodeAt w).default x.forest.store = .ok v m) :
    applyReset w true x = .ok [] (x.withStore (m.withValue (x.forest.wrapper w).node v)) := by
  have hbuild : (TreeM.build (copyValue (x.forest.nodeAt w).default) : TreeM σ Value) x =
      .ok v (x.withStore m) := by
    simp only [TreeM.build, EStateM.run, hcopy]
    rfl
  rw [applyReset, bind_of_ok (TreeM.checkAlive_of_live hlive), bind_of_ok (TreeM.hasDefault_eq w x),
    if_pos hdefault, TreeM.forest_bind, bind_of_ok hbuild]
  exact applyValue_self (f := { x.forest with store := m }) hlive v true x.user

theorem applyReset_of_not_copied {e : Fault}
    (hcopy : copyValue (x.forest.nodeAt w).default x.forest.store = .error e m) :
    applyReset w true x = .error e (x.withStore m) := by
  have hbuild : (TreeM.build (copyValue (x.forest.nodeAt w).default) : TreeM σ Value) x =
      .error e (x.withStore m) := by
    simp only [TreeM.build, EStateM.run, hcopy]
    rfl
  rw [applyReset, bind_of_ok (TreeM.checkAlive_of_live hlive), bind_of_ok (TreeM.hasDefault_eq w x),
    if_pos hdefault, TreeM.forest_bind, bind_of_error hbuild]

end

/-- Wherever it is called, the visitor leaves the wrappers as they are and the children of all
nodes. -/
theorem resetting_leaves {b : List Path} {a : ForInStep (List Path)}
    (h : resetting b c p x = .ok a y) :
    ∃ t, y = x.withStore t ∧ x.forest.store.KeepsChildren t := by
  rw [resetting, bind_of_ok (TreeM.hasDefault_eq c x)] at h
  cases hdefault : x.forest.store.hasDefault (x.forest.wrapper c).node with
  | false =>
    rw [hdefault] at h
    obtain ⟨-, rfl⟩ := EStateM.Result.ok.inj h
    exact ⟨x.forest.store, rfl, .refl _⟩
  | true =>
    rw [if_pos hdefault] at h
    have hlive : (x.forest.wrapper c).destroyed = false := by
      by_contra hdead
      have hreset : applyReset c true x = .error _ x :=
        bind_of_error (TreeM.checkAlive_of_destroyed (by simpa using hdead)) _
      cases (bind_of_error hreset _).symm.trans h
    cases hcopy : copyValue (x.forest.nodeAt c).default x.forest.store with
    | error e m =>
      cases (bind_of_error (applyReset_of_not_copied hlive hdefault hcopy) _).symm.trans h
    | ok v m =>
      have hrun := (bind_of_ok (applyReset_of_copied hlive hdefault hcopy) _).symm.trans h
      obtain ⟨-, rfl⟩ := EStateM.Result.ok.inj hrun
      have hextends := ((keeps_extends_copyValue _).ok Store.Extends.refl hcopy).1
      exact ⟨_, rfl, hextends.keepsChildren.trans (Store.keepsChildren_modifyNode _ fun _ => rfl)⟩

end Revision

/-- Whether the subtree below a wrapper can be reset: the wrapper is alive, and there are no cycles
below it. -/
structure World.Resettable (x : World σ) (w : WrapperRef) : Prop where
  arises : x.forest.Arises false
  made : w.index < x.forest.wrappers.size
  live : (x.forest.wrapper w).destroyed = false
  wellFormed : x.forest.store.WellFormed
  has : x.forest.store.Has (.node (x.forest.wrapper w).node)
  acyclic : Acyclic x.forest.store.parts (.node (x.forest.wrapper w).node)

theorem Forest.Along.reaches_parts {f : Forest} (hc : f.Along w p c) :
    Reaches f.store.parts (.node (f.wrapper w).node) (.node (f.wrapper c).node) :=
  Store.reaches_parts (Store.reaches_iff_follow.mpr ⟨p, hc.follow_eq⟩)

namespace World.Resettable

variable (h : x.Resettable w)

include h

theorem endsWithin : EndsWithin x.forest.store.parts x.forest.store.depthBound
    (.node (x.forest.wrapper w).node) := h.wellFormed.endsWithin h.has h.acyclic

theorem acyclic_offspring : Acyclic x.forest.store.offspring (x.forest.wrapper w).node :=
  (Store.endsWithin_offspring_of_parts h.endsWithin).acyclic

/-- The wrappers below are as well off. -/
theorem along (hc : x.forest.Along w p c) : x.Resettable c where
  arises := h.arises
  made := hc.made h.arises.kept.toOrdered h.made
  live := hc.live h.arises.lively h.live
  wellFormed := h.wellFormed
  has := h.wellFormed.has_reached h.has hc.reaches_parts
  acyclic := (h.endsWithin.reaches hc.reaches_parts).acyclic

theorem asks (hasks : World.Asks w x y) :
    y.Resettable w ∧ y.forest.store = x.forest.store ∧ y.user = x.user ∧
      (y.forest.wrapper w).node = (x.forest.wrapper w).node := by
  obtain ⟨p, v, key, hv, rfl⟩ := hasks
  have hmade := hv.made h.arises.kept.toOrdered h.made
  have hplaced := (h.arises.weaken true).placed
  have hunmoved := (Forest.Roamed.of_child hplaced hmade key).lasts w (hv.index_le hplaced.toKept)
  have hw := hunmoved.unmoved [] w (.here w)
  have hstore := x.forest.store_child v key
  refine ⟨⟨h.arises.child hmade key, ?_, ?_, ?_, ?_, ?_⟩, hstore, rfl, hw.node⟩
  · exact Nat.lt_of_lt_of_le h.made (x.forest.size_le_child v key)
  · exact hw.destroyed.trans h.live
  · exact hstore.symm ▸ h.wellFormed
  · exact hw.node.symm ▸ hstore.symm ▸ h.has
  · exact hw.node.symm ▸ hstore.symm ▸ h.acyclic

theorem asked (hasks : ReflTransGen (World.Asks w) x y) :
    y.Resettable w ∧ y.forest.store = x.forest.store ∧ y.user = x.user ∧
      (y.forest.wrapper w).node = (x.forest.wrapper w).node := by
  induction hasks with
  | refl => exact ⟨h, rfl, rfl, rfl⟩
  | tail _ hstep ih =>
    obtain ⟨hy, hstore, huser, hnode⟩ := ih
    obtain ⟨hz, hstore', huser', hnode'⟩ := hy.asks hstep
    exact ⟨hz, hstore'.trans hstore, huser'.trans huser, hnode'.trans hnode⟩

theorem renewed {q : NodeRef} {t : Store} (ht : x.forest.store.Renewed q t)
    (hq : x.forest.store.Has (.node q)) : (x.withStore t).Resettable w where
  arises := h.arises.store t
  made := h.made
  live := h.live
  wellFormed := ht.wellFormed h.wellFormed hq
  has := ht.has h.has
  acyclic := (ht.endsWithin h.wellFormed hq h.has h.endsWithin).acyclic

/-- Resetting the node of a wrapper gives it a copy of its default. -/
theorem applyReset_eq (hdefault : x.forest.store.hasDefault (x.forest.wrapper w).node = true) :
    ∃ t, x.forest.store.Renewed (x.forest.wrapper w).node t ∧
      Revision.applyReset w true x = .ok [] (x.withStore t) := by
  have hs := h.wellFormed
  have hmem := (x.forest.store.node (x.forest.wrapper w).node).default_mem_parts
  have hhas := hs.has_parts h.has _ hmem
  have hend := hs.endsWithin hhas (h.endsWithin.reaches (.below (.refl _) hmem)).acyclic
  obtain ⟨v, m, hcopy, he, hm, hv⟩ := builds_copyValue hs hend hhas .refl _ .refl hs
  exact ⟨_, ⟨v, m, hv m .refl, he, hm, rfl⟩, Revision.applyReset_of_copied h.live hdefault hcopy⟩

/-- What the visitor does at a wrapper. -/
theorem resetting_eq (hc : x.forest.Along w p c) (b : List Path) :
    let s := x.forest.store
    let r := (x.forest.wrapper w).node
    ∃ t, Revision.resetting b c p x = .ok (.yield (b ++ s.toDefaults r [p])) (x.withStore t) ∧
      (x.withStore t).Resettable w ∧ s.Renewals (s.targets r (s.toDefaults r [p])) t ∧
      (∀ p, t.follow r p = s.follow r p) ∧ ∀ paths, t.toDefaults r paths = s.toDefaults r paths := by
  intro s r
  have hfollow : s.follow r p = some (x.forest.wrapper c).node := hc.follow_eq
  rw [Revision.resetting, bind_of_ok (TreeM.hasDefault_eq c x)]
  cases hdefault : s.hasDefault (x.forest.wrapper c).node with
  | false =>
    have hnone : s.toDefaults r [p] = [] := by simp [Store.toDefaults, hfollow, hdefault]
    rw [hnone, List.append_nil]
    exact ⟨s, rfl, h, .nil s, fun _ => rfl, fun _ => rfl⟩
  | true =>
    have hone : s.toDefaults r [p] = [p] := by simp [Store.toDefaults, hfollow, hdefault]
    have htarget : s.targets r [p] = [(x.forest.wrapper c).node] := by
      simp [Store.targets, hfollow]
    have hhas := (h.along hc).has
    obtain ⟨t, ht, hrun⟩ := (h.along hc).applyReset_eq hdefault
    rw [hone, htarget]
    exact ⟨t, bind_of_ok hrun _, h.renewed ht hhas, .cons ht (.nil t),
      ht.follow_eq h.wellFormed hhas h.has, ht.toDefaults_eq h.wellFormed hhas h.has⟩

/-- What the visitor goes by stays. -/
theorem preserving : x.Preserving w (Revision.resetting (σ := σ)) := by
  intro y z p c b a hy hc hrun
  obtain ⟨t, rfl, hchildren⟩ := Revision.resetting_leaves hrun
  refine ⟨fun hf => hf.store t, fun r hr => (hchildren r hr).1, Nat.le_refl _,
    .of_keepsChildren rfl hchildren, fun p r hr => (hchildren r ?_).2⟩
  rw [hy.follow_eq] at hr
  exact hy.has r (Store.has_follow h.wellFormed h.has hr)

/-- Going through paths below the wrapper resets the nodes with defaults that they lead to, and
gives these paths. -/
theorem visiting {paths b : List Path} {l : List (Visit (List Path))} {e : Ending σ (List Path)}
    (hv : Visiting Revision.resetting w paths b x l e) :
    let s := x.forest.store
    let r := (x.forest.wrapper w).node
    ∃ z, e = .finished (b ++ s.toDefaults r paths) z ∧ z.Resettable w ∧ z.user = x.user ∧
      (z.forest.wrapper w).node = r ∧ s.Renewals (s.targets r (s.toDefaults r paths)) z.forest.store := by
  induction hv with
  | finished b x => exact ⟨x, by simp [Store.toDefaults], h, rfl, rfl, .nil _⟩
  | asked hasks _ ih =>
    obtain ⟨hy, hstore, huser, hnode⟩ := h.asked hasks
    obtain ⟨z, he, hz, hzuser, hznode, hrenewals⟩ := ih hy
    rw [hstore, hnode] at he hrenewals
    exact ⟨z, he, hz, hzuser.trans huser, hznode.trans hnode, hrenewals⟩
  | @passed paths b b' x y l e c p hc hvisit _ ih =>
    obtain ⟨t, hrun, ht, hfirst, hfollow, hdefaults⟩ := h.resetting_eq hc b
    obtain ⟨hb, rfl⟩ := EStateM.Result.ok.inj (hrun.symm.trans hvisit)
    obtain rfl := ForInStep.yield.inj hb
    obtain ⟨z, he, hz, huser, hnode, hrest⟩ := ih ht
    have hsplit := x.forest.store.toDefaults_cons (x.forest.wrapper w).node p paths
    refine ⟨z, ?_, hz, huser, hnode, ?_⟩
    · rw [he, hsplit, ← List.append_assoc]
      exact congrArg (Ending.finished · z) (congrArg _ (hdefaults paths))
    · rw [hsplit, Store.targets_append]
      refine hfirst.append ?_
      have hsame := (Store.targets_congr hfollow _).symm.trans
        (congrArg (t.targets _) (hdefaults paths).symm)
      exact hsame ▸ hrest
  | stopped hc hvisit =>
    obtain ⟨t, hrun, -⟩ := h.resetting_eq hc _
    cases hrun.symm.trans hvisit
  | failed hc hvisit =>
    obtain ⟨t, hrun, -⟩ := h.resetting_eq hc _
    cases hrun.symm.trans hvisit

end World.Resettable

/-! ### The whole subtree -/

/-- Whether resetting the whole subtree below a wrapper makes one world of another. All paths that
lead to nodes with defaults are announced at once, if there are any, unless it is kept silent. -/
def World.Resets (x : World σ) (w : WrapperRef) (y : World σ) : Prop :=
  y.user = x.user ∧ ∀ notify silent, TreeM.resetDeep notify w silent x =
    Revision.announce notify w (Revision.unlessSilent silent
      (x.forest.store.defaultPaths (x.forest.wrapper w).node)) y

/-- The nodes with defaults are renewed one after another. -/
theorem World.Resettable.resets (h : x.Resettable w) :
    let s := x.forest.store
    let r := (x.forest.wrapper w).node
    ∃ y, x.Resets w y ∧ y.Resettable w ∧ (y.forest.wrapper w).node = r ∧
      s.Renewals (s.defaultNodes r) y.forest.store := by
  intro s r
  obtain ⟨l, e, hrun, hl, -⟩ := preOrder_traverses (b := []) (h.arises.weaken true) h.made
    h.acyclic_offspring h.preserving
  obtain ⟨y, rfl, hy, huser, hnode, hrenewals⟩ := h.visiting hl
  refine ⟨y, ⟨huser, fun notify silent => ?_⟩, hy, hnode, hrenewals⟩
  have happly : (Revision.resetDeep silent).apply w x =
      .ok (Revision.unlessSilent silent (s.defaultPaths r)) y := by
    rw [Revision.apply, bind_of_ok (TreeM.checkAlive_of_live h.live)]
    exact bind_of_ok hrun _
  exact (congrFun (Revision.perform_eq notify w (.resetDeep silent)) x).trans (bind_of_ok happly _)

/-- The subtree can be reset in later worlds, too, if nothing was done to the nodes but renewing
them. -/
theorem World.Resettable.of_renewing (h : x.Resettable w) {done : NodeRef → Prop}
    (hdone : x.forest.store.Renewing done y.forest.store) (harises : y.forest.Arises false)
    (hmade : w.index < y.forest.wrappers.size) (hlive : (y.forest.wrapper w).destroyed = false)
    (hnode : (y.forest.wrapper w).node = (x.forest.wrapper w).node) : y.Resettable w where
  arises := harises
  made := hmade
  live := hlive
  wellFormed := hdone.wellFormed
  has := hnode ▸ hdone.has _ h.has
  acyclic := hnode ▸ (hdone.endsWithin _ _ h.has h.endsWithin).acyclic

/-- A value that looks like the default of its node is structurally equal to it. -/
theorem Store.Renewing.same_of_alike {s t : Store} {done : NodeRef → Prop} {q : NodeRef} {n : ℕ}
    (h : s.Renewing done t) (hq : s.Has (.node q)) (hend : EndsWithin s.parts n (.node q))
    (halike : Alike t t (t.node q).default (t.node q).value)
    (hnan : ∀ v, Reaches t.parts (t.node q).default v → ¬ v.IsNaN) :
    t.same (t.node q).default (t.node q).value = .ok true := by
  have hpart := (t.node q).default_mem_parts
  have hhas := h.wellFormed.has_parts (h.has _ hq) _ hpart
  have hacyclic := ((h.endsWithin _ _ hq hend).reaches (.below (.refl _) hpart)).acyclic
  exact sameTo_of_alike halike (h.wellFormed.endsWithin hhas hacyclic) hnan

/-- Below a living wrapper, in a tree without cycles whose defaults have no tuples in them, resetting
renews the nodes with defaults one after another. Nothing but their values changes in any node, and
each new value has nothing but scalars in common with its default. If each default leads to no others
of these nodes than those that come before, the values look like the defaults in the end, and
resetting once more leaves the form of every node as it is. -/
theorem resetDeep_renews (h : x.Resettable w)
    (htuples : ∀ q, Reaches x.forest.store.offspring (x.forest.wrapper w).node q →
      ∀ u, ¬ Reaches x.forest.store.parts (x.forest.store.node q).default (.tuple u)) :
    let s := x.forest.store
    let r := (x.forest.wrapper w).node
    ∃ y, x.Resets w y ∧ y.Resettable w ∧ (y.forest.wrapper w).node = r ∧
      let t := y.forest.store
      s.Renewals (s.defaultNodes r) t ∧
      (∀ q, s.Has (.node q) → ∃ v, t.node q = { s.node q with value := v }) ∧
      (∀ v, s.Has v → (∀ q ∈ s.defaultNodes r, v ≠ .node q) → s.Agree t v) ∧
      (∀ q, Reaches s.offspring r q → s.hasDefault q = true → ∀ v,
        Reaches t.parts (t.node q).value v → Reaches t.parts (t.node q).default v →
          v.cell? = none) ∧
      (s.InOrder (s.defaultNodes r) →
        (∀ q, Reaches s.offspring r q → s.hasDefault q = true →
          Alike t t (t.node q).default (t.node q).value ∧
          ((∀ v, Reaches t.parts (t.node q).default v → ¬ v.IsNaN) →
            t.same (t.node q).default (t.node q).value = .ok true)) ∧
        ∀ y' : World σ, y'.forest.store = t → y'.forest.Arises false →
          w.index < y'.forest.wrappers.size → (y'.forest.wrapper w).destroyed = false →
          (y'.forest.wrapper w).node = r → ∃ z : World σ, y'.Resets w z ∧
            ∀ q, s.Has (.node q) → Acyclic s.parts (.node q) →
              ∃ d : Data ν, t.nodeForm q = .ok d ∧ z.forest.store.nodeForm q = .ok d) := by
  intro s r
  obtain ⟨y, hy, hready, hnode, hrenewals⟩ := h.resets
  refine ⟨y, hy, hready, hnode, ?_⟩
  intro t
  have hs := h.wellFormed
  have hmem : ∀ {q}, q ∈ s.defaultNodes r ↔ Reaches s.offspring r q ∧ s.hasDefault q = true :=
    Store.mem_defaultNodes h.acyclic_offspring
  have hends : ∀ q ∈ s.defaultNodes r,
      s.Has (.node q) ∧ EndsWithin s.parts s.depthBound (.node q) := fun q hq =>
    have hreach := Store.reaches_parts (hmem.mp hq).1
    ⟨hs.has_reached h.has hreach, h.endsWithin.reaches hreach⟩
  have htuples : ∀ q ∈ s.defaultNodes r, ∀ u, ¬ Reaches s.parts (s.node q).default (.tuple u) :=
    fun q hq => htuples q (hmem.mp hq).1
  have hnone : s.Renewing (· ∈ ([] : List NodeRef)) s :=
    (Store.Renewing.refl hs).congr fun r => List.mem_nil_iff r
  obtain ⟨hall, hmatching⟩ := hrenewals.renewing hs hends htuples rfl hnone
  refine ⟨hrenewals, hall.node, fun v hv hne => hall.agree v hv fun q hq => hne q hq,
    fun q hq hdefault v hvalue hdef => ?_, fun horder => ⟨fun q hq hdefault => ?_,
      fun y' hstore harises hmade hlive hnode' => ?_⟩⟩
  · have hq := hmem.mpr ⟨hq, hdefault⟩
    exact hall.apart hs (hends q hq).1 hq (hends q hq).2 hvalue hdef
  · have hq := hmem.mpr ⟨hq, hdefault⟩
    have halike := hmatching horder (fun _ => nofun) q hq
    exact ⟨halike, hall.same_of_alike (hends q hq).1 (hends q hq).2 halike⟩
  · have hall' : s.Renewing (· ∈ s.defaultNodes r) y'.forest.store := by
      rw [hstore]
      exact hall
    have hready' := h.of_renewing hall' harises hmade hlive hnode'
    obtain ⟨z, hz, -, -, hagain⟩ := hready'.resets
    rw [hstore, hnode'] at hagain
    obtain ⟨houtlives, hlike⟩ := Store.Renewals.alike_again hs hends htuples hall
      (hmatching horder fun _ => nofun) hagain fun q =>
        (hall.mem_defaultNodes hs h.has h.endsWithin).mp
    refine ⟨z, hz, fun q hq hacyclic => ?_⟩
    have hend := hs.endsWithin hq hacyclic
    have hacyclic' := (hall.endsWithin _ _ hq hend).acyclic
    obtain ⟨d, hd, hform⟩ := hall.wellFormed.form_exists (ν := ν) (hall.has _ hq) hacyclic'
    exact ⟨d, hform, (hlike _ _ hq hend).form_eq_ok houtlives
      (hall.wellFormed.endsWithin (hall.has _ hq) hacyclic') hd⟩

end

/-- A quote with a list for its default. The default of the total is the fee, which has a default of
its own. -/
def Store.quote (children : Entries NodeRef) : Store :=
  let s := (initial.allocList [.int 7]).2
  let s := (s.allocNode { Builtin.node "fee" Builtin.property .plain with
    value := .int 3, default := .int 5 }).2
  let s := (s.allocNode { Builtin.node "total" Builtin.property .plain with
    default := .node ⟨8⟩ }).2
  (s.allocNode { Builtin.node "quote" Builtin.property .plain with
    default := .list ⟨0⟩, children }).2

/-- A wrapper of the quote. -/
def quoteWorld (children : Entries NodeRef) : World Unit where
  forest := ((Forest.mk (.quote children) #[]).allocWrapper (.ofNode ⟨10⟩ none)).2
  user := ()

namespace Store.quote

/-- The fee comes before the total. -/
def feeFirst : Entries NodeRef := .ofList [("fee", ⟨8⟩), ("total", ⟨9⟩)]

/-- The total comes before the fee. -/
def totalFirst : Entries NodeRef := .ofList [("total", ⟨9⟩), ("fee", ⟨8⟩)]

theorem reached_list {c : Entries NodeRef} {v : Value}
    (h : Reaches (quote c).parts (.list ⟨0⟩) v) : v = .list ⟨0⟩ ∨ v.cell? = none := by
  refine h.closed (P := fun v => v = .list ⟨0⟩ ∨ v.cell? = none) (.inl rfl) ?_
  rintro x - (rfl | hx) y hy
  · exact .inr (List.mem_singleton.mp hy ▸ rfl)
  · rw [parts_of_cell?_eq_none _ hx] at hy
    cases hy

theorem reached_fee {c : Entries NodeRef} {v : Value}
    (h : Reaches (quote c).parts (.node ⟨8⟩) v) : v = .node ⟨8⟩ ∨ v.cell? = none := by
  refine h.closed (P := fun v => v = .node ⟨8⟩ ∨ v.cell? = none) (.inl rfl) ?_
  rintro x - (rfl | hx) y hy
  · rcases List.mem_pair.mp hy with rfl | rfl <;> exact .inr rfl
  · rw [parts_of_cell?_eq_none _ hx] at hy
    cases hy

theorem subtree {c : Entries NodeRef} (hc : c = feeFirst ∨ c = totalFirst) {q : NodeRef}
    (h : Reaches (quote c).offspring ⟨10⟩ q) : q = ⟨10⟩ ∨ q = ⟨9⟩ ∨ q = ⟨8⟩ := by
  have hall : ∀ q ∈ ([⟨10⟩, ⟨9⟩, ⟨8⟩] : List NodeRef), ∀ y ∈ (quote c).offspring q,
      y ∈ ([⟨10⟩, ⟨9⟩, ⟨8⟩] : List NodeRef) := by
    rcases hc with rfl | rfl <;> decide
  simpa using h.closed (P := (· ∈ ([⟨10⟩, ⟨9⟩, ⟨8⟩] : List NodeRef))) (by simp)
    fun q _ hq => hall q hq

theorem no_tuples {c : Entries NodeRef} (hc : c = feeFirst ∨ c = totalFirst) {q : NodeRef}
    (h : Reaches (quote c).offspring ⟨10⟩ q) (u : TupleRef) :
    ¬ Reaches (quote c).parts ((quote c).node q).default (.tuple u) := by
  intro hu
  rcases subtree hc h with rfl | rfl | rfl
  · simpa [Value.cell?] using reached_list hu
  · simpa [Value.cell?] using reached_fee hu
  · simpa [Value.cell?] using reached_fee (hu.of_below ((quote c).node ⟨8⟩).default_mem_parts)

/-- The only default that leads to a node is that of the total, which comes last. -/
theorem inOrder_feeFirst : (quote feeFirst).InOrder ((quote feeFirst).defaultNodes ⟨10⟩) := by
  have hnodes : (quote feeFirst).defaultNodes ⟨10⟩ = [⟨10⟩, ⟨8⟩, ⟨9⟩] := by decide
  have hint : ∀ q, ¬ Reaches (quote feeFirst).parts (.int 5) (.node q) := fun q h => by
    rcases ReflTransGen.cases_head h with h | ⟨p, hp, -⟩ <;> contradiction
  rw [hnodes]
  rintro before r after hsplit q - hq
  match before, hsplit with
  | [], hsplit =>
    obtain ⟨rfl, -⟩ := List.cons.inj hsplit
    simpa [Value.cell?] using reached_list hq
  | [_], hsplit =>
    obtain ⟨rfl, -⟩ := List.cons.inj (List.cons.inj hsplit).2
    exact absurd hq (hint q)
  | [_, b], hsplit =>
    obtain ⟨hb, hlast⟩ := List.cons.inj (List.cons.inj hsplit).2
    obtain ⟨rfl, -⟩ := List.cons.inj hlast
    rcases reached_fee hq with hfee | hscalar
    · simp [← hb, Value.node.inj hfee]
    · cases hscalar
  | _ :: _ :: _ :: _, hsplit =>
    simp at hsplit

end Store.quote

theorem quoteWorld_resettable {c : Entries NodeRef}
    (hc : c = Store.quote.feeFirst ∨ c = Store.quote.totalFirst) :
    (quoteWorld c).Resettable ⟨0⟩ := by
  refine ⟨(Forest.Arises.start _).wrap ⟨10⟩ none, (by decide : 0 < 1), rfl, ?_, ?_, ?_⟩
  · have htotal := Store.initial_wellFormed.allocList (l := [.int 7]) (by decide)
      |>.allocNode (n := { Builtin.node "fee" Builtin.property .plain with
        value := .int 3, default := .int 5 }) (by decide) rfl (by decide)
      |>.allocNode (n := { Builtin.node "total" Builtin.property .plain with
        default := .node ⟨8⟩ }) (by decide) rfl (by decide)
    rcases hc with rfl | rfl <;> exact htotal.allocNode (by decide) rfl (by decide)
  · exact (by decide : 10 < 11)
  · refine EndsWithin.acyclic (n := 4) ?_
    rcases hc with rfl | rfl <;> decide

theorem quote_reset : let s := Store.quote Store.quote.feeFirst
    s.defaultPaths ⟨10⟩ = [[], ["fee"], ["total"]] ∧
    ∃ y z : World Unit, (quoteWorld Store.quote.feeFirst).Resets ⟨0⟩ y ∧
      Alike y.forest.store y.forest.store (y.forest.store.node ⟨9⟩).default
        (y.forest.store.node ⟨9⟩).value ∧
      y.Resets ⟨0⟩ z ∧ ∃ d : Data Unit, y.forest.store.nodeForm ⟨10⟩ = .ok d ∧
        z.forest.store.nodeForm ⟨10⟩ = .ok d := by
  have hready := quoteWorld_resettable (.inl rfl)
  obtain ⟨y, hy, hyready, hnode, -, -, -, -, hordered⟩ := resetDeep_renews (ν := Unit) hready
    fun q hq => Store.quote.no_tuples (.inl rfl) hq
  obtain ⟨halike, hagain⟩ := hordered Store.quote.inOrder_feeFirst
  obtain ⟨z, hz, hform⟩ := hagain y rfl hyready.arises hyready.made hyready.live hnode
  have htotal : Reaches (Store.quote Store.quote.feeFirst).offspring ⟨10⟩ ⟨9⟩ :=
    .below (.refl _) (by decide)
  exact ⟨by decide, y, z, hy, (halike ⟨9⟩ htotal rfl).1, hz, hform ⟨10⟩ hready.has hready.acyclic⟩

/-- The value of the value of the total, in a form of the quote. -/
def Store.quote.total? (form : Except Fault (Data Unit)) : Option ℤ :=
  let keys := ["children", "total", "value", "value"]
  match form.toOption.bind (keys.foldlM (fun d k => d.get? k) ·) with
  | some (.int i) => some i
  | _ => none

/-- What a world becomes when a subtree is reset and nobody is told. -/
def World.afterReset (w : WrapperRef) (x : World Unit) : World Unit :=
  match TreeM.resetDeep (fun _ _ => pure ()) w true x with
  | .ok _ y => y
  | .error _ y => y

theorem World.Resets.eq_afterReset {w : WrapperRef} {x y : World Unit} (h : x.Resets w y) :
    y = x.afterReset w := by
  have hrun : TreeM.resetDeep (fun _ _ => pure ()) w true x = .ok () y := h.2 _ true
  rw [World.afterReset, hrun]

/-- The total has got a copy of the fee as it was before the fee itself was reset. -/
theorem Store.quote.afterReset : let y := (quoteWorld totalFirst).afterReset ⟨0⟩
    y.forest.store.same (y.forest.store.node ⟨9⟩).default (y.forest.store.node ⟨9⟩).value =
      .ok false ∧
    (y.forest.store.nodeForm ⟨10⟩ : Except Fault (Data Unit)) ≠
      (y.afterReset ⟨0⟩).forest.store.nodeForm ⟨10⟩ := by
  refine ⟨by decide +kernel, ne_of_apply_ne total? ?_⟩
  decide +kernel

/-- The order matters. If the fee comes after the total, the value of the total is not what its
default is in the end, and changes when all is reset once more. -/
theorem quote_reset_twice :
    (quoteWorld Store.quote.totalFirst).Resettable ⟨0⟩ ∧
    (∀ q, Reaches (Store.quote Store.quote.totalFirst).offspring ⟨10⟩ q → ∀ u,
      ¬ Reaches (Store.quote Store.quote.totalFirst).parts
        ((Store.quote Store.quote.totalFirst).node q).default (.tuple u)) ∧
    ∃ y z, (quoteWorld Store.quote.totalFirst).Resets ⟨0⟩ y ∧ y.Resets ⟨0⟩ z ∧
      y.forest.store.same (y.forest.store.node ⟨9⟩).default (y.forest.store.node ⟨9⟩).value =
        .ok false ∧
      (y.forest.store.nodeForm ⟨10⟩ : Except Fault (Data Unit)) ≠
        z.forest.store.nodeForm ⟨10⟩ := by
  have hready := quoteWorld_resettable (.inr rfl)
  obtain ⟨y, hy, hyready, -⟩ := hready.resets
  obtain ⟨z, hz, -⟩ := hyready.resets
  refine ⟨hready, fun q hq => Store.quote.no_tuples (.inr rfl) hq, y, z, hy, hz, ?_⟩
  rw [hz.eq_afterReset, hy.eq_afterReset]
  exact Store.quote.afterReset

end LiveTree
