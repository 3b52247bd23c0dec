import LiveTree.Proofs.Keeping
import LiveTree.Proofs.Tree.Navigation
import LiveTree.Tree.Listen
import Mathlib.Data.List.TakeWhile

/-! Who is told of a change. A change at a wrapper is announced along a line: at the wrapper and at
its ancestors, as long as each node still stands under its key in its parent. Every wrapper on the
line tells its subscribers of the change with the keys that lead down to where it was made, up to
the first that holds notifications back, which collects it instead. Listeners that change nothing
but what the program keeps for itself are told just this. -/

namespace LiveTree

/-- A call of a listener: its number and the paths that it is told. -/
abbrev Call : Type := ℕ × List String

/-- The call of a subscriber when paths have changed, if any of them passes its filter. -/
def Subscriber.call? (paths : List String) (x : Subscriber) : Option Call :=
  if (x.admitted paths).isEmpty then none else some (x.listener, x.admitted paths)

/-- What a wrapper tells its subscribers at a time. -/
structure Telling where
  wrapper : WrapperRef
  subscribers : List Subscriber
  paths : List Path

/-- The calls of the subscribers of a wrapper that is told of changed paths, in order. -/
def Telling.calls (t : Telling) : List Call :=
  t.subscribers.filterMap (·.call? (t.paths.map Text.undotted))

/-- A wrapper and the keys down to where a change is made. -/
abbrev Station : Type := WrapperRef × Path

/-- The station seen from further down. -/
def Station.under (q : Station) (keys : Path) : Station := (q.1, q.2 ++ keys)

namespace Forest

variable {f g : Forest} {w v c p : WrapperRef} {key : String} {keys : Path} {n : ℕ}

/-- The wrappers that hear of a change at the first of some wrappers that go up. -/
def lineOf (f : Forest) : List WrapperRef → List Station
  | [] => []
  | a :: rest =>
    (a, []) ::
      match f.keyInParent a with
      | none => []
      | some key => (f.lineOf rest).map (·.under [key])

/-- The wrappers that hear of a change at a wrapper: the wrapper itself and its ancestors, up to the
first whose node is no longer the one under its key. -/
def line (f : Forest) (w : WrapperRef) : List Station := f.lineOf (w :: f.ancestors w)

/-- A wrapper and its ancestors, so many in all. -/
def upTo (f : Forest) : ℕ → WrapperRef → List WrapperRef
  | 0, _ => []
  | n + 1, w => w :: f.ancestorsTo n w

theorem ancestorsTo_eq_upTo (n : ℕ) (w : WrapperRef) :
    f.ancestorsTo n w = match (f.wrapper w).parent with
      | none => []
      | some p => f.upTo n p := by
  cases n with
  | zero => cases (f.wrapper w).parent <;> rfl
  | succ n => rfl

/-- The stations before the first that holds back. -/
def audience (f : Forest) (line : List Station) : List Station :=
  line.takeWhile fun q => (f.wrapper q.1).batched.isNone

/-- What the stations of a line tell of paths below its start. -/
def tellings (f : Forest) (line : List Station) (paths : List Path) : List Telling :=
  (f.audience line).map fun q =>
    { wrapper := q.1, subscribers := (f.wrapper q.1).subscribers, paths := paths.map (q.2 ++ ·) }

/-- A wrapper that holds back adds to what it has collected. -/
def collectAt (f : Forest) (w : WrapperRef) (paths : List Path) : Forest :=
  f.modifyWrapper w fun x => { x with batched := some (x.batched.getD [] ++ paths) }

/-- The first station of a line that holds back collects paths below the line's start. -/
def collect (f : Forest) (line : List Station) (paths : List Path) : Forest :=
  match line.find? fun q => (f.wrapper q.1).batched.isSome with
  | none => f
  | some q => f.collectAt q.1 (paths.map (q.2 ++ ·))

/-! ### Lines -/

theorem line_of_none (h : f.keyInParent w = none) : f.line w = [(w, [])] := by
  rw [line, lineOf, h]

theorem line_of_some (ho : f.Ordered) (hparent : (f.wrapper c).parent = some w)
    (hkey : f.keyInParent c = some key) :
    f.line c = (c, []) :: (f.line w).map (·.under [key]) := by
  rw [line, lineOf, hkey, ancestors_eq_cons ho hparent]
  rfl

theorem exists_parent (h : f.keyInParent c = some key) :
    ∃ w, (f.wrapper c).parent = some w := by
  cases hp : (f.wrapper c).parent with
  | none => simp [keyInParent, hp] at h
  | some w => exact ⟨w, rfl⟩

/-- The line of a lower wrapper goes through the wrappers on the way and then along the line of the
upper one. -/
theorem Leads.exists_line (h : f.Leads w keys c) (ho : f.Ordered) :
    ∃ between : List Station, between.length = keys.length ∧
      between.map Prod.fst ++ w :: f.ancestors w = c :: f.ancestors c ∧
      f.line c = between ++ (f.line w).map (·.under keys) := by
  induction h with
  | here w => exact ⟨[], rfl, rfl, by simp [Station.under]⟩
  | @child w c d key rest hparent hkey hnode _ ih =>
    obtain ⟨between, hlength, hancestors, hline⟩ := ih
    refine ⟨between ++ [(c, rest)], by simp [hlength], ?_, ?_⟩
    · rw [← hancestors, ancestors_eq_cons ho hparent]
      simp
    · rw [hline, line_of_some ho hparent (keyInParent_eq_some hparent hkey hnode)]
      simp [Station.under]

/-- Where a line goes depends on places and children only. -/
theorem lineOf_congr {l : List WrapperRef} (h : ∀ a ∈ l, g.keyInParent a = f.keyInParent a) :
    g.lineOf l = f.lineOf l := by
  induction l with
  | nil => rfl
  | cons a rest ih =>
    rw [lineOf, lineOf, h a List.mem_cons_self, ih fun b hb => h b (List.mem_cons_of_mem _ hb)]

theorem ancestorsTo_congr {P : WrapperRef → Prop}
    (hparent : ∀ a, P a → (g.wrapper a).parent = (f.wrapper a).parent)
    (hup : ∀ a p, P a → (f.wrapper a).parent = some p → P p) (hw : P w) :
    g.ancestorsTo n w = f.ancestorsTo n w ∧ ∀ a ∈ f.ancestorsTo n w, P a := by
  induction n generalizing w with
  | zero => exact ⟨rfl, fun _ ha => absurd ha List.not_mem_nil⟩
  | succ n ih =>
    rw [ancestorsTo, ancestorsTo, hparent w hw]
    cases hp : (f.wrapper w).parent with
    | none => exact ⟨rfl, fun _ ha => absurd ha List.not_mem_nil⟩
    | some p =>
      obtain ⟨e, hall⟩ := ih (hup w p hw hp)
      exact ⟨congrArg (p :: ·) e, List.forall_mem_cons.mpr ⟨hup w p hw hp, hall⟩⟩

/-- Two forests have the same line at a wrapper if they agree on the places of the wrapper and all
wrappers above, and on the children of their nodes. -/
theorem line_congr {P : WrapperRef → Prop}
    (hplace : ∀ a, P a → (g.wrapper a).parent = (f.wrapper a).parent ∧
      (g.wrapper a).key = (f.wrapper a).key ∧ (g.wrapper a).node = (f.wrapper a).node)
    (hnode : ∀ a, P a → (g.nodeAt a).children = (f.nodeAt a).children)
    (hup : ∀ a p, P a → (f.wrapper a).parent = some p → P p) (hw : P w) :
    g.line w = f.line w := by
  obtain ⟨e, hall⟩ := ancestorsTo_congr (n := w.index) (fun a ha => (hplace a ha).1) hup hw
  have hkey : ∀ a, P a → g.keyInParent a = f.keyInParent a := by
    intro a ha
    obtain ⟨hparent, hkey, hn⟩ := hplace a ha
    simp only [keyInParent, hparent, hkey, hn]
    cases hp : (f.wrapper a).parent with
    | none => rfl
    | some p => simp [hnode p (hup a p ha hp)]
  rw [line, line, ancestors, ancestors, e]
  exact lineOf_congr (List.forall_mem_cons.mpr ⟨hkey w hw, fun a ha => hkey a (hall a ha)⟩)

/-! ### Along a line -/

/-- A station that holds back lets nobody after it hear of the change. -/
theorem tellings_of_some {q : Station} {held : List Path}
    (h : (f.wrapper q.1).batched = some held) (line : List Station) (paths : List Path) :
    f.tellings (q :: line) paths = [] := by
  simp [tellings, audience, h]

theorem collect_of_some {q : Station} {held : List Path}
    (h : (f.wrapper q.1).batched = some held) (line : List Station) (paths : List Path) :
    f.collect (q :: line) paths = f.collectAt q.1 (paths.map (q.2 ++ ·)) := by
  simp [collect, h]

theorem tellings_of_none {q : Station} (h : (f.wrapper q.1).batched = none) (line : List Station)
    (paths : List Path) : f.tellings (q :: line) paths =
      { wrapper := q.1, subscribers := (f.wrapper q.1).subscribers, paths := paths.map (q.2 ++ ·) }
        :: f.tellings line paths := by
  simp [tellings, audience, h]

theorem collect_of_none {q : Station} (h : (f.wrapper q.1).batched = none) (line : List Station)
    (paths : List Path) : f.collect (q :: line) paths = f.collect line paths := by
  simp [collect, h]

/-- What is told from further down is told with the keys in front. -/
theorem tellings_under (line : List Station) (keys : Path) (paths : List Path) :
    f.tellings (line.map (·.under keys)) paths = f.tellings line (paths.map (keys ++ ·)) := by
  have haudience : f.audience (line.map (·.under keys)) =
      (f.audience line).map (·.under keys) := by
    rw [audience, audience, List.takeWhile_map]
    rfl
  rw [tellings, haudience, tellings]
  simp [Station.under, Function.comp_def]

theorem collect_under (line : List Station) (keys : Path) (paths : List Path) :
    f.collect (line.map (·.under keys)) paths = f.collect line (paths.map (keys ++ ·)) := by
  have hfind : (line.map (·.under keys)).find? (fun q => (f.wrapper q.1).batched.isSome) =
      (line.find? fun q => (f.wrapper q.1).batched.isSome).map (·.under keys) := by
    rw [List.find?_map]
    rfl
  rw [collect, collect, hfind]
  cases line.find? fun q => (f.wrapper q.1).batched.isSome with
  | none => rfl
  | some q => simp [Station.under, Function.comp_def]

/-- Where nobody holds back, the rest of the line hears of the change as if it began there. -/
theorem tellings_append {between : List Station}
    (h : ∀ q ∈ between, (f.wrapper q.1).batched = none) (line : List Station) (paths : List Path) :
    f.tellings (between ++ line) paths = f.tellings between paths ++ f.tellings line paths := by
  induction between with
  | nil => rfl
  | cons q rest ih =>
    obtain ⟨hq, hrest⟩ := List.forall_mem_cons.mp h
    rw [List.cons_append, tellings_of_none hq, tellings_of_none hq, ih hrest]
    rfl

theorem collect_append {between : List Station}
    (h : ∀ q ∈ between, (f.wrapper q.1).batched = none) (line : List Station) (paths : List Path) :
    f.collect (between ++ line) paths = f.collect line paths := by
  induction between with
  | nil => rfl
  | cons q rest ih =>
    obtain ⟨hq, hrest⟩ := List.forall_mem_cons.mp h
    rw [List.cons_append, collect_of_none hq, ih hrest]

/-- When nobody holds back, everybody on the line is told and nothing changes. -/
theorem audience_eq_self {line : List Station}
    (h : ∀ q ∈ line, (f.wrapper q.1).batched = none) : f.audience line = line := by
  rw [audience, List.takeWhile_eq_self_iff.mpr]
  intro q hq
  simp [h q hq]

theorem collect_eq_self {line : List Station} (paths : List Path)
    (h : ∀ q ∈ line, (f.wrapper q.1).batched = none) : f.collect line paths = f := by
  have hnone : line.find? (fun q => (f.wrapper q.1).batched.isSome) = none := by
    rw [List.find?_eq_none]
    intro q hq
    simp [h q hq]
  rw [collect, hnone]

/-- What comes after a wrapper that holds back hears nothing. -/
theorem tellings_append_of_held {between : List Station}
    (h : ∃ q ∈ between, (f.wrapper q.1).batched.isSome = true) (line : List Station)
    (paths : List Path) : f.tellings (between ++ line) paths = f.tellings between paths := by
  induction between with
  | nil => simp at h
  | cons q rest ih =>
    cases hq : (f.wrapper q.1).batched with
    | some held => rw [List.cons_append, tellings_of_some hq, tellings_of_some hq]
    | none =>
      have hrest : ∃ q ∈ rest, (f.wrapper q.1).batched.isSome = true := by simpa [hq] using h
      rw [List.cons_append, tellings_of_none hq, tellings_of_none hq, ih hrest]

theorem collect_append_of_held {between : List Station}
    (h : ∃ q ∈ between, (f.wrapper q.1).batched.isSome = true) (line : List Station)
    (paths : List Path) : f.collect (between ++ line) paths = f.collect between paths := by
  induction between with
  | nil => simp at h
  | cons q rest ih =>
    cases hq : (f.wrapper q.1).batched with
    | some held => rw [List.cons_append, collect_of_some hq, collect_of_some hq]
    | none =>
      have hrest : ∃ q ∈ rest, (f.wrapper q.1).batched.isSome = true := by simpa [hq] using h
      rw [List.cons_append, collect_of_none hq, collect_of_none hq, ih hrest]

/-- The stations are the wrapper and some of its ancestors. -/
theorem lineOf_sublist (l : List WrapperRef) : ((f.lineOf l).map Prod.fst).Sublist l := by
  induction l with
  | nil => exact .slnil
  | cons a rest ih =>
    rw [lineOf, List.map_cons]
    refine .cons_cons a ?_
    split
    · exact List.nil_sublist _
    · rw [List.map_map]
      exact ih

theorem mem_of_mem_line {q : Station} (hq : q ∈ f.line w) : q.1 ∈ w :: f.ancestors w :=
  (lineOf_sublist _).subset (List.mem_map_of_mem hq)

/-- Ancestors come in the order in which they were made, last first. -/
theorem ancestors_pairwise (ho : f.Ordered) (w : WrapperRef) :
    (w :: f.ancestors w).Pairwise fun a b => b.index < a.index := by
  obtain ⟨n, hn⟩ : ∃ n, w.index = n := ⟨_, rfl⟩
  induction n using Nat.strongRecOn generalizing w with
  | ind n ih =>
    cases hp : (f.wrapper w).parent with
    | none =>
      rw [ancestors_eq_nil hp]
      exact List.pairwise_singleton _ _
    | some p =>
      have hlt := ho.parent_lt w p hp
      have hrest := ih p.index (by omega) p rfl
      rw [ancestors_eq_cons ho hp]
      refine List.pairwise_cons.mpr ⟨List.forall_mem_cons.mpr ⟨hlt, fun a ha => ?_⟩, hrest⟩
      exact Nat.lt_trans (List.rel_of_pairwise_cons hrest ha) hlt

theorem lt_of_mem_ancestors (ho : f.Ordered) (h : v ∈ f.ancestors w) : v.index < w.index :=
  List.rel_of_pairwise_cons (ancestors_pairwise ho w) h

/-- No wrapper is twice on a line. -/
theorem nodup_line (ho : f.Ordered) (w : WrapperRef) : ((f.line w).map Prod.fst).Nodup := by
  have hnodup : (w :: f.ancestors w).Nodup := (ancestors_pairwise ho w).imp fun h e => by
    rw [e] at h
    exact Nat.lt_irrefl _ h
  exact hnodup.sublist (lineOf_sublist _)

end Forest

namespace TreeM

variable {σ : Type} (note : σ → Call → σ)

/-- Listeners that change nothing but what the program keeps for itself. -/
def noting : Notify σ := fun listener paths =>
  modify fun x => { x with user := note x.user (listener, paths) }

theorem tell_noting (paths : List String) (l : List Subscriber) (x : World σ) :
    tell (noting note) paths l x =
      .ok () { x with user := (l.filterMap (·.call? paths)).foldl note x.user } := by
  induction l generalizing x with
  | nil => rfl
  | cons s rest ih =>
    rw [tell, List.filterMap_cons, Subscriber.call?]
    dsimp only
    cases hnone : (s.admitted paths).isEmpty with
    | true => exact ih x
    | false => exact ih { x with user := note x.user (s.listener, s.admitted paths) }

/-- What is left when changed paths have been announced along a line. -/
def announced (line : List Station) (paths : List Path) (x : World σ) : World σ where
  forest := x.forest.collect line paths
  user := ((x.forest.tellings line paths).flatMap Telling.calls).foldl note x.user

/-- Listeners that change nothing are told along the line. -/
theorem emitTo_noting (n : ℕ) (w : WrapperRef) (paths : List Path) (x : World σ) :
    emitTo (noting note) n w paths x =
      .ok () (announced note (x.forest.lineOf (x.forest.upTo n w)) paths x) := by
  induction n generalizing w paths x with
  | zero => rfl
  | succ n ih =>
    obtain ⟨f, u⟩ := x
    rw [emitTo, forest_bind, Forest.upTo, Forest.lineOf]
    dsimp only
    cases hheld : (f.wrapper w).batched with
    | some held =>
      rw [announced, Forest.tellings_of_some hheld, Forest.collect_of_some hheld]
      simp [Forest.collectAt, Forest.modifyWrapper, hheld, modifyForest]
      rfl
    | none =>
      dsimp only
      rw [bind_of_ok (tell_noting note _ _ _), forest_bind, announced,
        Forest.tellings_of_none hheld, Forest.collect_of_none hheld, Forest.ancestorsTo_eq_upTo]
      cases hkey : f.keyInParent w with
      | none =>
        cases (f.wrapper w).parent <;> simp [Telling.calls] <;> rfl
      | some key =>
        obtain ⟨p, hp⟩ := Forest.exists_parent hkey
        simp only [hp, ih, announced, Forest.tellings_under, Forest.collect_under]
        simp [Telling.calls]

theorem emit_noting (w : WrapperRef) (paths : List Path) (x : World σ) :
    emit (noting note) w paths x = .ok () (announced note (x.forest.line w) paths x) :=
  emitTo_noting note (w.index + 1) w paths x

end TreeM

end LiveTree
