import LiveTree.Proofs.Store.Developing
import LiveTree.Proofs.Tree.Announcement
import LiveTree.Proofs.Tree.Rollback

/-! Changes of a node and who is told of them. A change does something to the forest, and says which
paths are to be announced at the wrapper it was asked for; the two do not depend on each other. None
of them changes which children a node has, so the line along which it is announced is that of the
forest before. -/

namespace LiveTree

theorem Node.children_withEntries (n : Node) {role : Role} (hr : role ≠ .children)
    (m : Entries NodeRef) : (n.withEntries role m).children = n.children := by
  cases role with
  | children => exact (hr rfl).elim
  | _ => rfl

/-- A change of the cells that leaves the children of all nodes leaves every line. -/
theorem Forest.WellFormed.line_eq {f : Forest} (hf : f.WellFormed) {s : Store}
    (hs : f.store.KeepsChildren s) (w : WrapperRef) : ({ f with store := s } : Forest).line w =
      f.line w :=
  line_congr (P := fun _ => True) (fun _ _ => ⟨rfl, rfl, rfl⟩)
    (fun a _ => (hs _ (hf.has_node a)).2) (fun _ _ _ _ => trivial) trivial

/-! ### Changes -/

/-- A change of a node that is announced where it is asked for. -/
inductive Revision where
  | setValue (v : Value) (path : Path) (silent : Bool)
  | reset (silent : Bool)
  | resetDeep (silent : Bool)
  | setEntry (role : Role) (key : String) (r : NodeRef) (silent : Bool)
  | removeEntry (role : Role) (key : String) (silent : Bool)
  | emitChange (path : Path)

/-! ### What subscribers hear of one change -/

namespace Subscriber

/-- Whether a subscriber is told of a path. -/
def hears (x : Subscriber) (path : String) : Bool :=
  match x.filter with
  | none => true
  | some filter => filter.admits path

theorem call?_singleton (x : Subscriber) (path : String) :
    x.call? [path] = if x.hears path then some (x.listener, [path]) else none := by
  obtain ⟨number, listener, filter⟩ := x
  cases filter with
  | none => rfl
  | some filter => cases h : filter.admits path <;> simp [call?, admitted, hears, h]

end Subscriber

/-- The calls for a change announced at a wrapper with some segments: along the line, nearest
wrapper first, each subscriber that is told of the path from its wrapper down is called once, in
order, with this path alone. -/
def Forest.hearings (f : Forest) (w : WrapperRef) (segments : Path) : List Call :=
  (f.line w).flatMap fun q =>
    let path := Text.undotted (q.2 ++ segments)
    ((f.wrapper q.1).subscribers.filter (·.hears path)).map fun x => (x.listener, [path])

theorem Forest.calls_eq_hearings {f : Forest} {w : WrapperRef}
    (hopen : ∀ a ∈ w :: f.ancestors w, (f.wrapper a).batched = none) (segments : Path) :
    (f.tellings (f.line w) [segments]).flatMap Telling.calls = f.hearings w segments := by
  have hline : ∀ q ∈ f.line w, (f.wrapper q.1).batched = none := fun q hq =>
    hopen q.1 (mem_of_mem_line hq)
  rw [tellings, audience_eq_self hline, List.flatMap_map, hearings]
  congr 1
  funext q
  simp only [Telling.calls, List.map_cons, List.map_nil, Subscriber.call?_singleton]
  rw [← List.filterMap_eq_map, List.filterMap_filter]
  rfl

namespace Revision

variable {σ : Type}

/-- Carries out a change at a wrapper. -/
def perform (notify : Notify σ) (w : WrapperRef) : Revision → TreeM σ Unit
  | setValue v path silent => TreeM.setValue notify w v path silent
  | reset silent => TreeM.reset notify w silent
  | resetDeep silent => TreeM.resetDeep notify w silent
  | setEntry role key r silent => TreeM.setEntry notify role w key r silent
  | removeEntry role key silent => do let _ ← TreeM.removeEntry notify role w key silent
  | emitChange path => TreeM.emitChange notify w path

/-- What there is to announce. -/
def unlessSilent (silent : Bool) (paths : List Path) : List Path := if silent then [] else paths

/-- Sets a value without telling anybody; gives the paths to announce. -/
def applyValue (w : WrapperRef) (v : Value) (path : Path) (silent : Bool) :
    TreeM σ (List Path) := do
  TreeM.checkAlive w
  match ← TreeM.descend w path with
  | none => return []
  | some target => do
    TreeM.modifyForest (·.modifyNodeAt target fun n => { n with value := v })
    return unlessSilent silent [path]

/-- Resets a node without telling anybody; gives the paths to announce. -/
def applyReset (w : WrapperRef) (silent : Bool) : TreeM σ (List Path) := do
  TreeM.checkAlive w
  if ← TreeM.hasDefault w then
    let v ← TreeM.build (copyValue ((← TreeM.forest).nodeAt w).default)
    applyValue w v [] silent
  else return []

/-- Does what a change does to the forest, without telling anybody; gives the paths to announce. -/
def apply (w : WrapperRef) : Revision → TreeM σ (List Path)
  | setValue v path silent => applyValue w v path silent
  | reset silent => applyReset w silent
  | resetDeep silent => do
    TreeM.checkAlive w
    let changed ← TreeM.preOrder w [] fun changed c path => do
      if ← TreeM.hasDefault c then
        let _ ← applyReset c true
        return .yield (changed ++ [path])
      else return .yield changed
    return unlessSilent silent changed
  | setEntry role key r silent => do
    TreeM.checkAlive w
    TreeM.modifyForest
      (·.modifyNodeAt w fun n => n.withEntries role ((n.entries role).insert key r))
    return unlessSilent silent [[role.name, key]]
  | removeEntry role key silent => do
    TreeM.checkAlive w
    if (((← TreeM.forest).nodeAt w).entries role).contains key then
      TreeM.modifyForest (·.modifyNodeAt w fun n => n.withEntries role ((n.entries role).erase key))
      return unlessSilent silent [[role.name, key]]
    else return []
  | emitChange path => do
    TreeM.checkAlive w
    return [path]

/-- Announces paths, if there are any. -/
def announce (notify : Notify σ) (w : WrapperRef) (paths : List Path) : TreeM σ Unit :=
  unless paths.isEmpty do TreeM.emit notify w paths

variable (notify : Notify σ)

theorem announce_unlessSilent (silent : Bool) (w : WrapperRef) (path : Path) :
    announce notify w (unlessSilent silent [path]) = TreeM.emitUnless notify silent w path := by
  cases silent <;> rfl

theorem setValue_eq (w : WrapperRef) (v : Value) (path : Path) (silent : Bool) :
    TreeM.setValue notify w v path silent = applyValue w v path silent >>= announce notify w := by
  simp only [TreeM.setValue, applyValue, bind_assoc]
  congr 1
  funext _
  congr 1
  funext target
  cases target with
  | none => rfl
  | some target => simp [announce_unlessSilent]

theorem reset_eq (w : WrapperRef) (silent : Bool) :
    TreeM.reset notify w silent = applyReset w silent >>= announce notify w := by
  simp only [TreeM.reset, applyReset, bind_assoc]
  congr 1
  funext _
  congr 1
  funext has
  cases has with
  | false => rfl
  | true => simp [setValue_eq]

/-- What is kept silent is not announced. -/
theorem setValue_silent (w : WrapperRef) (v : Value) (path : Path) :
    TreeM.setValue notify w v path true = applyValue w v path true >>= fun _ => pure () := by
  simp only [TreeM.setValue, applyValue, bind_assoc]
  congr 1
  funext _
  congr 1
  funext target
  cases target <;> rfl

theorem reset_silent (w : WrapperRef) :
    TreeM.reset notify w true = applyReset w true >>= fun _ => pure () := by
  simp only [TreeM.reset, applyReset, bind_assoc]
  congr 1
  funext _
  congr 1
  funext has
  cases has with
  | false => rfl
  | true => simp [setValue_silent]

/-- A change does what it does to the forest, and then it is announced. -/
theorem perform_eq (w : WrapperRef) (e : Revision) :
    e.perform notify w = e.apply w >>= announce notify w := by
  cases e with
  | setValue v path silent => exact setValue_eq notify w v path silent
  | reset silent => exact reset_eq notify w silent
  | resetDeep silent =>
    simp only [perform, TreeM.resetDeep, apply, reset_silent, bind_assoc, pure_bind]
    congr 1
    funext _
    congr 1
    funext changed
    cases silent with
    | true => simp [announce, unlessSilent]
    | false => simp [announce, unlessSilent]
  | setEntry role key r silent =>
    simp [perform, apply, TreeM.setEntry, announce_unlessSilent]
  | removeEntry role key silent =>
    simp only [perform, apply, TreeM.removeEntry, bind_assoc]
    congr 1
    funext _
    congr 1
    funext f
    cases ((f.nodeAt w).entries role).contains key with
    | false => rfl
    | true => simp [announce_unlessSilent]
  | emitChange path =>
    simp [perform, apply, TreeM.emitChange, announce]

/-- Whether a change leaves all nodes the children that they have. -/
def LeavesChildren : Revision → Prop
  | setEntry role .. => role ≠ .children
  | removeEntry role .. => role ≠ .children
  | _ => True

/-! ### Changes at one wrapper -/

/-- Whether a change takes effect at a wrapper and is to be announced there, with the segments that
it is announced with. -/
inductive Announces (f : Forest) (w : WrapperRef) : Revision → Path → Prop
  | setValue (v : Value) : Announces f w (.setValue v [] false) []
  | reset (hdefault : (f.nodeAt w).default.isNone = false)
    (hcopy : ∃ v t, copyValue (f.nodeAt w).default f.store = .ok v t) :
    Announces f w (.reset false) []
  | setEntry {role : Role} (hrole : role ≠ .children) (key : String) (r : NodeRef) :
    Announces f w (.setEntry role key r false) [role.name, key]
  | removeEntry {role : Role} (hrole : role ≠ .children) {key : String}
    (hkey : ((f.nodeAt w).entries role).contains key = true) :
    Announces f w (.removeEntry role key false) [role.name, key]
  | emitChange (path : Path) : Announces f w (.emitChange path) path

variable {f : Forest} {w : WrapperRef} {e : Revision} {s : Path}

theorem applyValue_self (hlive : (f.wrapper w).destroyed = false) (v : Value) (silent : Bool)
    (u : σ) : applyValue w v [] silent ⟨f, u⟩ = .ok (unlessSilent silent [[]])
      ⟨f.modifyNodeAt w fun n => { n with value := v }, u⟩ := by
  rw [applyValue, bind_of_ok (TreeM.checkAlive_of_live hlive)]
  rfl

/-- A change that takes effect at a wrapper leaves the wrappers as they are and the children of all
nodes, and gives the segments to announce. -/
theorem Announces.apply_eq (he : e.Announces f w s) (hlive : (f.wrapper w).destroyed = false)
    (u : σ) : ∃ t, e.apply w ⟨f, u⟩ = .ok [s] ⟨{ f with store := t }, u⟩ ∧
      f.store.KeepsChildren t := by
  cases he with
  | setValue v =>
    exact ⟨_, applyValue_self hlive v false u, Store.keepsChildren_modifyNode _ fun _ => rfl⟩
  | reset hdefault hcopy =>
    obtain ⟨v, t, hcopy⟩ := hcopy
    have hhas : TreeM.hasDefault w ⟨f, u⟩ = .ok true ⟨f, u⟩ := by
      rw [TreeM.hasDefault, TreeM.forest_bind, hdefault]
      rfl
    have hbuild : TreeM.build (copyValue (f.nodeAt w).default) ⟨f, u⟩ =
        .ok v ⟨{ f with store := t }, u⟩ := by
      simp only [TreeM.build, EStateM.run, hcopy]
    have hextends := (keeps_extends_copyValue (f.nodeAt w).default).ok Store.Extends.refl hcopy
    refine ⟨t.modifyNode (f.wrapper w).node fun n => { n with value := v }, ?_,
      hextends.1.keepsChildren.trans (Store.keepsChildren_modifyNode _ fun _ => rfl)⟩
    rw [apply, applyReset, bind_of_ok (TreeM.checkAlive_of_live hlive), bind_of_ok hhas, if_pos rfl,
      TreeM.forest_bind, bind_of_ok hbuild]
    exact applyValue_self (f := { f with store := t }) hlive v false u
  | @setEntry role hrole key r =>
    refine ⟨f.store.modifyNode (f.wrapper w).node
      fun n => n.withEntries role ((n.entries role).insert key r), ?_,
      Store.keepsChildren_modifyNode _ fun n => n.children_withEntries hrole _⟩
    rw [apply, bind_of_ok (TreeM.checkAlive_of_live hlive)]
    rfl
  | @removeEntry role hrole key hkey =>
    refine ⟨f.store.modifyNode (f.wrapper w).node
      fun n => n.withEntries role ((n.entries role).erase key), ?_,
      Store.keepsChildren_modifyNode _ fun n => n.children_withEntries hrole _⟩
    rw [apply, bind_of_ok (TreeM.checkAlive_of_live hlive), TreeM.forest_bind, if_pos hkey]
    rfl
  | emitChange path =>
    refine ⟨f.store, ?_, .refl _⟩
    rw [apply, bind_of_ok (TreeM.checkAlive_of_live hlive)]
    rfl

/-- Every change that takes effect at a living wrapper is told along the line from there, when no
wrapper on the line holds back and listeners change nothing: at the wrapper itself, and at its
ancestors up to the first whose node is no longer the one under its key, each subscriber that has no
filter or whose filter admits the path is called exactly once, with the keys from its wrapper down
and the segments of the change, and nobody else is. -/
theorem perform_tells (hf : f.WellFormed) (hlive : (f.wrapper w).destroyed = false)
    (hopen : ∀ a ∈ w :: f.ancestors w, (f.wrapper a).batched = none) (he : e.Announces f w s)
    (note : σ → Call → σ) (u : σ) :
    ∃ t, e.perform (TreeM.noting note) w ⟨f, u⟩ =
      .ok () ⟨{ f with store := t }, (f.hearings w s).foldl note u⟩ := by
  obtain ⟨t, happly, hchildren⟩ := he.apply_eq hlive u
  have hline := hf.line_eq hchildren w
  have hopen' : ∀ q ∈ f.line w, (f.wrapper q.1).batched = none := fun q hq =>
    hopen q.1 (Forest.mem_of_mem_line hq)
  refine ⟨t, ?_⟩
  rw [perform_eq, bind_of_ok happly]
  refine (TreeM.emit_noting note w [s] _).trans ?_
  rw [TreeM.announced, hline, Forest.collect_eq_self (f := { f with store := t }) _ hopen',
    ← Forest.calls_eq_hearings hopen s]
  rfl

end Revision

/-- The form with its address and city under wrappers, and subscribers on the form and the
address, of which two have filters. -/
def Forest.listeningForm : Forest :=
  ((wrappedForm.descend ⟨0⟩ ["address", "city"]).2.modifyWrapper ⟨0⟩ fun x =>
    { x with issued := 2, subscribers :=
      [⟨1, 0, none⟩, ⟨2, 1, some (.within "address.city.metadata")⟩] }).modifyWrapper ⟨1⟩ fun x =>
    { x with issued := 1, subscribers := [⟨1, 2, some (.within "city")⟩] }

theorem Forest.listeningForm_arises (onRequest : Bool) : listeningForm.Arises onRequest :=
  ((wrappedForm_arises onRequest).descend (by decide) _).tuned _ ⟨rfl, rfl, rfl, rfl, rfl⟩
    |>.tuned _ ⟨rfl, rfl, rfl, rfl, rfl⟩

theorem Store.addressForm_wellFormed : addressForm.WellFormed :=
  initial_wellFormed.allocNode (by decide) rfl (by decide)
    |>.allocNode (by decide) rfl (by decide)
    |>.allocNode (by decide) rfl (by decide)

theorem Store.addressForm_orderly : addressForm.Orderly :=
  Develops.refl.allocNode (by decide) rfl (by decide)
    |>.allocNode (by decide) rfl (by decide)
    |>.allocNode (by decide) rfl (by decide)
    |>.orderly initial_orderly

theorem Forest.listeningForm_wellFormed : listeningForm.WellFormed where
  store := Store.addressForm_wellFormed
  has_node w := by
    obtain ⟨_ | _ | _ | i⟩ := w
    · decide
    · decide
    · decide
    · exact (by decide : Store.addressForm.Has (.node (default : Wrapper).node))

theorem listeningForm_tells : ∃ t, (Revision.setValue (.str "Lund") [] false).perform
    (TreeM.noting fun l c => l ++ [c]) ⟨2⟩ ⟨Forest.listeningForm, []⟩ =
      .ok () ⟨{ Forest.listeningForm with store := t }, [(2, ["city"]), (0, ["address.city"])]⟩ :=
  Revision.perform_tells Forest.listeningForm_wellFormed rfl (by decide) (.setValue _)
    (fun l c => l ++ [c]) []

/-- A filter is no reason not to be told: only a subscriber whose filter does not admit the path is
left out. -/
theorem filtered_is_told : Forest.listeningForm.Arises false ∧
    (Forest.listeningForm.wrapper ⟨2⟩).destroyed = false ∧
    (∀ a ∈ (⟨2⟩ : WrapperRef) :: Forest.listeningForm.ancestors ⟨2⟩,
      (Forest.listeningForm.wrapper a).batched = none) ∧
    (Revision.setEntry .metadata "hint" Builtin.lit false).Announces Forest.listeningForm ⟨2⟩
      ["metadata", "hint"] ∧
    ¬ ∃ t, (Revision.setEntry .metadata "hint" Builtin.lit false).perform
      (TreeM.noting fun l c => l ++ [c]) ⟨2⟩ ⟨Forest.listeningForm, []⟩ =
        .ok () ⟨{ Forest.listeningForm with store := t },
          (Forest.listeningForm.line ⟨2⟩).flatMap fun q =>
            ((Forest.listeningForm.wrapper q.1).subscribers.filter (·.filter.isNone)).map fun x =>
              (x.listener, [Text.undotted (q.2 ++ ["metadata", "hint"])])⟩ := by
  refine ⟨Forest.listeningForm_arises false, rfl, by decide, .setEntry (by decide) _ _,
    fun ⟨t, h⟩ => ?_⟩
  have htold : ∃ g, (Revision.setEntry .metadata "hint" Builtin.lit false).perform
      (TreeM.noting fun l c => l ++ [c]) ⟨2⟩ ⟨Forest.listeningForm, []⟩ =
        .ok () ⟨g, [(2, ["city.metadata.hint"]), (0, ["address.city.metadata.hint"]),
          (1, ["address.city.metadata.hint"])]⟩ := ⟨_, rfl⟩
  obtain ⟨g, hg⟩ := htold
  rw [hg] at h
  injection h with _ hworld
  have hlength : 3 = 1 := congrArg (·.user.length) hworld
  exact absurd hlength (by decide)

end LiveTree
