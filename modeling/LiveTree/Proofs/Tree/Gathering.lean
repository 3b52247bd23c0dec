import LiveTree.Proofs.Tree.Course
import LiveTree.Proofs.Tree.Steady
import Mathlib.Data.List.Induction

/-! Batches. While a course of changes runs in a batch at a wrapper, what would be told at the
wrapper and above is collected instead; everybody else is told what they would be told without it.
At the end, the subscribers of the wrapper and of those that hear of it are told once: of all paths
that they would have been offered, each where it came first. If the course fails, they are not told
at all. Batches inside, at the wrapper itself or further down, make no difference. -/

namespace LiveTree

/-! ### Each path where it comes first -/

section First

variable {α β : Type} [BEq α] [LawfulBEq α] [BEq β] [LawfulBEq β]

theorem eraseDups_concat (l : List α) (a : α) :
    (l ++ [a]).eraseDups = if a ∈ l then l.eraseDups else l.eraseDups ++ [a] := by
  rw [List.eraseDups_append]
  split <;> simp_all [List.removeAll, List.eraseDups_cons]

/-- Lists that come to the same also do so when the same is added. -/
theorem eraseDups_append_congr {l l' : List α} (h : l.eraseDups = l'.eraseDups) (m : List α) :
    (l ++ m).eraseDups = (l' ++ m).eraseDups := by
  have hmem : ∀ a, a ∈ l ↔ a ∈ l' := fun a => by
    rw [← List.mem_eraseDups, h, List.mem_eraseDups]
  induction m using List.reverseRecOn with
  | nil => simpa using h
  | append_singleton m a ih =>
    rw [← List.append_assoc, ← List.append_assoc, eraseDups_concat, eraseDups_concat, ih]
    simp only [List.mem_append, hmem]

/-- What is added may be without repetitions already. -/
theorem eraseDups_append_eraseDups (l m : List α) :
    (l ++ m.eraseDups).eraseDups = (l ++ m).eraseDups := by
  induction m using List.reverseRecOn with
  | nil => simp
  | append_singleton m a ih =>
    rw [eraseDups_concat, ← List.append_assoc, eraseDups_concat]
    by_cases ha : a ∈ m
    · rw [if_pos ha, if_pos (List.mem_append_right l ha), ih]
    · rw [if_neg ha, ← List.append_assoc, eraseDups_concat, ih]
      simp only [List.mem_append, List.mem_eraseDups]

/-- What tells elements apart keeps repetitions apart. -/
theorem eraseDups_map {g : α → β} (hg : Function.Injective g) (l : List α) :
    (l.map g).eraseDups = l.eraseDups.map g := by
  induction l using List.reverseRecOn with
  | nil => rfl
  | append_singleton l a ih =>
    rw [List.map_append, List.map_singleton, eraseDups_concat, eraseDups_concat, ih]
    simp only [List.mem_map_of_injective hg]
    split
    · rfl
    · rw [List.map_append, List.map_singleton]

end First

/-! ### What has been offered -/

/-- All paths that the subscribers of a wrapper have been offered, in order. -/
def offered (told : List Telling) (v : WrapperRef) : List Path :=
  (told.filter (·.wrapper = v)).flatMap Telling.paths

namespace Forest

variable {f g : Forest} {v w : WrapperRef} {line : List Station} {paths : List Path}

theorem offered_append (told told' : List Telling) (v : WrapperRef) :
    offered (told ++ told') v = offered told v ++ offered told' v := by
  simp [offered]

theorem exists_station {t : Telling} (ht : t ∈ g.tellings line paths) :
    ∃ q ∈ line, t.wrapper = q.1 := by
  obtain ⟨q, hq, rfl⟩ := List.mem_map.mp ht
  exact ⟨q, (List.takeWhile_sublist _).subset hq, rfl⟩

theorem offered_eq_nil (h : ∀ q ∈ line, q.1 ≠ v) : offered (g.tellings line paths) v = [] := by
  have hnone : (g.tellings line paths).filter (·.wrapper = v) = [] := by
    rw [List.filter_eq_nil_iff]
    intro t ht
    obtain ⟨q, hq, e⟩ := exists_station ht
    simpa [e] using h q hq
  rw [offered, hnone]
  rfl

/-- Each wrapper on a line where nobody holds back is offered the paths once. -/
theorem offered_tellings (hopen : ∀ q ∈ line, (g.wrapper q.1).batched = none)
    (hnodup : (line.map Prod.fst).Nodup) {q : Station} (hq : q ∈ line) :
    offered (g.tellings line paths) q.1 = paths.map (q.2 ++ ·) := by
  induction line with
  | nil => cases hq
  | cons a rest ih =>
    obtain ⟨ha, hrest⟩ := List.forall_mem_cons.mp hopen
    obtain ⟨hnot, hnodup⟩ := List.nodup_cons.mp hnodup
    rw [tellings_of_none ha]
    rcases List.mem_cons.mp hq with rfl | hq
    · have hnil : offered (g.tellings rest paths) q.1 = [] :=
        offered_eq_nil fun b hb e => hnot (e ▸ List.mem_map_of_mem hb)
      rw [offered] at hnil
      simp [offered, hnil]
    · have hne : a.1 ≠ q.1 := fun e => hnot (e ▸ List.mem_map_of_mem hq)
      have := ih hrest hnodup hq
      rw [offered] at this
      simpa [offered, hne] using this

end Forest

/-! ### With and without a batch -/

/-- Whether a batch can begin at a wrapper: it has been made, and neither it nor a wrapper above it
holds back. -/
structure Forest.Ready (f : Forest) (w : WrapperRef) : Prop where
  kept : f.Kept
  wellFormed : f.WellFormed
  made : w.index < f.wrappers.size
  quiet : ∀ a ∈ w :: f.ancestors w, f.holding a = false

/-- How a world in which a wrapper holds back goes beside one in which it does not need to: they
differ in what the wrapper holds back, and nothing has been told at the wrapper and above. -/
structure Beside (f : Forest) (w : WrapperRef) (i : WrapperRef → Bool)
    (x y : World (List Telling)) : Prop where
  steady : f.Steady w x.forest
  holding : x.forest.holding = i
  held : ∃ held, y.forest = x.forest.withHeld w (some held)
  told : y.user = x.user.filter fun t => t.wrapper ∉ w :: f.ancestors w

/-- Whether a wrapper has moreover gathered what it has been offered in the other world and is still
to be offered there, and whoever hears of it has been offered the same with the keys in front. -/
structure Gathers (f : Forest) (w : WrapperRef) (i : WrapperRef → Bool)
    (x y : World (List Telling)) : Prop extends Beside f w i x y where
  along : ∀ q ∈ f.line w, offered x.user q.1 = (offered x.user w).map (q.2 ++ ·)
  gathered : (y.forest.collected w).eraseDups =
    (offered x.user w ++ x.forest.collected w).eraseDups

namespace Forest

variable {f g : Forest} {v w : WrapperRef}

theorem exists_line_eq (f : Forest) (w : WrapperRef) : ∃ rest, f.line w = (w, []) :: rest := by
  cases hkey : f.keyInParent w with
  | none => exact ⟨[], line_of_none hkey⟩
  | some key => exact ⟨_, by rw [line, lineOf]⟩

theorem mem_line_self (f : Forest) (w : WrapperRef) : (w, []) ∈ f.line w := by
  obtain ⟨rest, e⟩ := f.exists_line_eq w
  rw [e]
  exact List.mem_cons_self

/-- Nobody above holds back either. -/
theorem Ready.open_line (hr : f.Ready w) (h : f.Steady w g) (hw : g.holding w = false) :
    ∀ q ∈ f.line w, (g.wrapper q.1).batched = none := by
  intro q hq
  have hmem := mem_of_mem_line hq
  rcases List.mem_cons.mp hmem with e | ha
  · rw [e]
    exact batched_of_holding hw
  · rw [h.before _ (lt_of_mem_ancestors hr.kept.toOrdered ha)]
    exact batched_of_holding (hr.quiet _ hmem)

end Forest

section Together

variable {f : Forest} {v w : WrapperRef} {i : WrapperRef → Bool} {x y : World (List Telling)}

theorem Beside.made (h : Beside f w i x y) (hr : f.Ready w) :
    w.index < x.forest.wrappers.size := Nat.lt_of_lt_of_le hr.made h.steady.size_le

theorem Beside.holding_right (h : Beside f w i x y) (hr : f.Ready w) :
    y.forest.holding = Function.update i w true := by
  obtain ⟨held, e⟩ := h.held
  rw [e, Forest.holding_withHeld (.inl (h.made hr)), h.holding]
  rfl

/-- Further wrappers may begin and end to hold back, on both sides. -/
theorem Beside.hold (h : Beside f w i x y) (hr : f.Ready w) (hv : f.Beneath w v) (hne : v ≠ w)
    (held : Option (List Path)) (hmade : v.index < x.forest.wrappers.size ∨ held = none) :
    Beside f w (Function.update i v held.isSome) (x.hold v held) (y.hold v held) where
  steady := h.steady.withHeld hr.kept.toOrdered hv held
  holding := (Forest.holding_withHeld hmade).trans (by rw [h.holding])
  held := by
    obtain ⟨b, e⟩ := h.held
    exact ⟨b, (congrArg (·.withHeld v held) e).trans (Forest.withHeld_comm hne _ _)⟩
  told := h.told

theorem Gathers.hold (h : Gathers f w i x y) (hr : f.Ready w) (hv : f.Beneath w v) (hne : v ≠ w)
    (held : Option (List Path)) (hmade : v.index < x.forest.wrappers.size ∨ held = none) :
    Gathers f w (Function.update i v held.isSome) (x.hold v held) (y.hold v held) where
  toBeside := h.toBeside.hold hr hv hne held hmade
  along := h.along
  gathered := by
    rw [World.hold, World.hold, World.withForest, World.withForest,
      Forest.collected_withHeld_of_ne hne.symm, Forest.collected_withHeld_of_ne hne.symm]
    exact h.gathered

/-- The wrapper may begin and end to hold back in the first world. -/
theorem Beside.holdFirst (h : Beside f w i x y) (hr : f.Ready w) (held : Option (List Path)) :
    Beside f w (Function.update i w held.isSome) (x.hold w held) y where
  steady := h.steady.withHeld hr.kept.toOrdered (.refl f w) held
  holding := (Forest.holding_withHeld (.inl (h.made hr))).trans (by rw [h.holding])
  held := by
    obtain ⟨b, e⟩ := h.held
    exact ⟨b, e.trans (Forest.withHeld_withHeld _ _ _ _).symm⟩
  told := h.told

/-- In the second world it may have collected something else. -/
theorem Beside.holdSecond (h : Beside f w i x y) (paths : List Path) :
    Beside f w i x (y.hold w (some paths)) where
  steady := h.steady
  holding := h.holding
  held := by
    obtain ⟨b, e⟩ := h.held
    exact ⟨paths, (congrArg (·.withHeld w (some paths)) e).trans (Forest.withHeld_withHeld _ _ _ _)⟩
  told := h.told

/-! ### Announcements -/

/-- What is announced without getting to the wrapper is told in both worlds. -/
theorem Gathers.below (h : Gathers f w i x y) (hr : f.Ready w) {below : List Station}
    (hbelow : ∀ q ∈ below, f.Beneath w q.1 ∧ q.1 ≠ w) (paths : List Path) :
    Gathers f w i (TreeM.logged below paths x) (TreeM.logged below paths y) := by
  have ho := hr.kept.toOrdered
  have hne : ∀ q ∈ below, q.1 ≠ w := fun q hq => (hbelow q hq).2
  have hnot : ∀ q ∈ below, q.1 ∉ w :: f.ancestors w := fun q hq =>
    (hbelow q hq).1.not_mem ho (hbelow q hq).2
  have hoffered : ∀ a ∈ w :: f.ancestors w,
      offered (TreeM.logged below paths x).user a = offered x.user a := by
    intro a ha
    rw [TreeM.logged, Forest.offered_append, Forest.offered_eq_nil, List.append_nil]
    rintro q hq rfl
    exact hnot q hq ha
  obtain ⟨held, e⟩ := h.held
  constructor
  · constructor
    · exact h.steady.collect ho (fun q hq => (hbelow q hq).1) paths
    · exact (Forest.holding_collect _ below paths).trans h.holding
    · exact ⟨held, (congrArg (·.collect below paths) e).trans (Forest.collect_withHeld hne paths)⟩
    · have hself : (x.forest.tellings below paths).filter
          (fun t => decide (t.wrapper ∉ w :: f.ancestors w)) = x.forest.tellings below paths := by
        rw [List.filter_eq_self]
        intro t ht
        obtain ⟨q, hq, hqt⟩ := Forest.exists_station ht
        simpa [hqt] using hnot q hq
      rw [TreeM.logged, TreeM.logged, List.filter_append, hself, h.told, e,
        Forest.tellings_withHeld hne]
  · intro q hq
    rw [hoffered q.1 (Forest.mem_of_mem_line hq), hoffered w List.mem_cons_self, h.along q hq]
  · rw [hoffered w List.mem_cons_self, TreeM.logged, TreeM.logged, Forest.collected_collect hne,
      Forest.collected_collect hne, h.gathered]

/-- A wrapper that holds back collects what is announced along its line. -/
theorem TreeM.logged_of_holding (f : Forest) (h : x.forest.holding w = true) (paths : List Path) :
    TreeM.logged (f.line w) paths x = x.hold w (some (x.forest.collected w ++ paths)) := by
  obtain ⟨rest, hline⟩ := f.exists_line_eq w
  obtain ⟨held, hheld⟩ := Option.isSome_iff_exists.mp h
  rw [hline, TreeM.logged, Forest.tellings_of_some hheld, Forest.collect_of_some hheld,
    Forest.collectAt_eq]
  simp [World.hold, World.withForest]

/-- One that does not offers it to its subscribers and to those of whoever hears of it. -/
theorem Beside.offers (h : Beside f w i x y) (hr : f.Ready w) (hw : i w = false)
    (paths : List Path) : Beside f w i (TreeM.logged (f.line w) paths x) y ∧
      (TreeM.logged (f.line w) paths x).forest = x.forest ∧
      ∀ q ∈ f.line w, offered (TreeM.logged (f.line w) paths x).user q.1 =
        offered x.user q.1 ++ paths.map (q.2 ++ ·) := by
  have hopen := hr.open_line h.steady ((congrFun h.holding w).trans hw)
  have hforest : (TreeM.logged (f.line w) paths x).forest = x.forest :=
    Forest.collect_eq_self paths hopen
  refine ⟨⟨?_, ?_, ?_, ?_⟩, hforest, fun q hq => ?_⟩
  · rw [hforest]
    exact h.steady
  · rw [hforest]
    exact h.holding
  · rw [hforest]
    exact h.held
  · have hnone : (x.forest.tellings (f.line w) paths).filter
        (fun t => decide (t.wrapper ∉ w :: f.ancestors w)) = [] := by
      rw [List.filter_eq_nil_iff]
      intro t ht
      obtain ⟨q, hq, hqt⟩ := Forest.exists_station ht
      exact fun hnot => of_decide_eq_true hnot (hqt ▸ Forest.mem_of_mem_line hq)
    rw [TreeM.logged, List.filter_append, hnone, List.append_nil, h.told]
  · rw [TreeM.logged, Forest.offered_append,
      Forest.offered_tellings hopen (Forest.nodup_line hr.kept.toOrdered w) hq]

/-- What gets to the wrapper is collected in the second world. In the first it is told along the
line, unless it is collected there too. -/
theorem Gathers.above (h : Gathers f w i x y) (hr : f.Ready w) (paths : List Path) :
    Gathers f w i (TreeM.logged (f.line w) paths x) (TreeM.logged (f.line w) paths y) := by
  have hgathered := eraseDups_append_congr h.gathered paths
  rw [List.append_assoc] at hgathered
  have hy : y.forest.holding w = true := by rw [h.holding_right hr, Function.update_self]
  have hmade := h.made hr
  have hmade' : w.index < y.forest.wrappers.size := Forest.lt_size_of_holding hy
  rw [TreeM.logged_of_holding f hy]
  cases hw : i w with
  | true =>
    have hx : x.forest.holding w = true := (congrFun h.holding w).trans hw
    have hbeside := (h.holdFirst hr (some (x.forest.collected w ++ paths))).holdSecond
      (y.forest.collected w ++ paths)
    rw [Option.isSome_some, ← hw, Function.update_eq_self] at hbeside
    rw [TreeM.logged_of_holding f hx]
    refine ⟨hbeside, h.along, ?_⟩
    rw [World.collected_hold hmade', World.collected_hold hmade]
    exact hgathered
  | false =>
    obtain ⟨hbeside, hforest, hoffered⟩ := h.offers hr hw paths
    have hself := hoffered (w, []) (f.mem_line_self w)
    simp only [List.nil_append, List.map_id'] at hself
    have hnone : x.forest.collected w = [] := by
      rw [Forest.collected, Forest.batched_of_holding ((congrFun h.holding w).trans hw)]
      rfl
    refine ⟨hbeside.holdSecond _, fun q hq => ?_, ?_⟩
    · rw [hoffered q hq, hself, h.along q hq, List.map_append]
    · rw [World.collected_hold hmade', hforest, hself, hnone, List.append_nil]
      rwa [hnone, List.nil_append] at hgathered

/-- An announcement from beneath the wrapper. -/
theorem Gathers.announces (hr : f.Ready w) (hv : f.Beneath w v) (i : WrapperRef → Bool)
    (paths : List Path) : Mirrors (Gathers f w i) (TreeM.logging v paths) (TreeM.logging v paths)
      (fun _ => Gathers f w i) (Beside f w i) := by
  intro x y h
  refine ⟨rfl, ?_⟩
  obtain ⟨held, e⟩ := h.held
  have hsame : y.forest.line v = x.forest.line v := by rw [e, Forest.line_withHeld]
  have hline := h.steady.line_eq hr.wellFormed hr.kept.toOrdered
  show Gathers f w i (TreeM.logged (x.forest.line v) paths x)
    (TreeM.logged (y.forest.line v) paths y)
  rw [hsame]
  obtain ⟨below, hbelow, hends | ⟨keys, hends⟩⟩ := h.steady.exists_line hv
  · rw [hends]
    exact h.below hr hbelow paths
  rw [hends, hline]
  have hbatched : ∀ q ∈ below, (y.forest.wrapper q.1).batched = (x.forest.wrapper q.1).batched := by
    intro q hq
    rw [e, Forest.wrapper_withHeld_of_ne (hbelow q hq).2]
  by_cases hheld : ∃ q ∈ below, (x.forest.wrapper q.1).batched.isSome = true
  · have hheld' : ∃ q ∈ below, (y.forest.wrapper q.1).batched.isSome = true := by
      obtain ⟨q, hq, hsome⟩ := hheld
      exact ⟨q, hq, by rwa [hbatched q hq]⟩
    rw [TreeM.logged_append_of_held hheld, TreeM.logged_append_of_held hheld']
    exact h.below hr hbelow paths
  · have hopen : ∀ q ∈ below, (x.forest.wrapper q.1).batched = none := by simpa using hheld
    have hopen' : ∀ q ∈ below, (y.forest.wrapper q.1).batched = none := fun q hq =>
      (hbatched q hq).trans (hopen q hq)
    rw [TreeM.logged_append hopen, TreeM.logged_append hopen', TreeM.logged_under,
      TreeM.logged_under]
    exact (h.below hr hbelow paths).above hr _

/-! ### Batches inside -/

/-- At the end of a batch at the wrapper, in the first world, it is offered each path that it has
collected once. -/
theorem Gathers.flush (h : Gathers f w (Function.update i w true) x y) (hr : f.Ready w)
    (hw : i w = false) : ∃ z, TreeM.announceAny TreeM.logging w (x.forest.collected w).eraseDups
      (x.hold w none) = .ok () z ∧ Gathers f w i z y := by
  have hbeside := h.holdFirst hr none
  rw [Function.update_idem, Option.isSome_none, ← hw, Function.update_eq_self] at hbeside
  have hmade := h.made hr
  have hline := hbeside.steady.line_eq hr.wellFormed hr.kept.toOrdered
  rw [TreeM.announceAny]
  cases hempty : (x.forest.collected w).eraseDups.isEmpty with
  | true =>
    have hnil : x.forest.collected w = [] := by
      rw [List.isEmpty_iff] at hempty
      refine List.eq_nil_iff_forall_not_mem.mpr fun a ha => ?_
      rw [← List.mem_eraseDups, hempty] at ha
      cases ha
    refine ⟨_, rfl, hbeside, h.along, ?_⟩
    rw [World.collected_hold hmade, h.gathered, hnil]
    rfl
  | false =>
    obtain ⟨hoffers, hforest, hoffered⟩ := hbeside.offers hr hw (x.forest.collected w).eraseDups
    have hself := hoffered (w, []) (f.mem_line_self w)
    simp only [List.nil_append, List.map_id'] at hself
    refine ⟨TreeM.logged (f.line w) (x.forest.collected w).eraseDups (x.hold w none), ?_,
      hoffers, fun q hq => ?_, ?_⟩
    · rw [← hline]
      rfl
    · rw [hoffered q hq, hself, List.map_append]
      exact congrArg (· ++ _) (h.along q hq)
    · rw [hforest, World.collected_hold hmade, hself, Option.getD_none, List.append_nil,
        eraseDups_append_eraseDups]
      exact h.gathered

theorem Gathers.transparent (hr : f.Ready w) (i : WrapperRef → Bool) :
    Transparent (f.Beneath w) (Gathers f w i) where
  store h := by
    obtain ⟨held, e⟩ := h.held
    rw [e, Forest.store_withHeld]
  size h := by
    obtain ⟨held, e⟩ := h.held
    rw [e, Forest.size_withHeld]
  node h v := by
    obtain ⟨held, e⟩ := h.held
    rw [e, Forest.node_withHeld]
  destroyed h v := by
    obtain ⟨held, e⟩ := h.held
    rw [e, Forest.destroyed_withHeld]
  cells {x y s} h hs := by
    obtain ⟨held, e⟩ := h.held
    have e' := congrArg (fun f : Forest => { f with store := s }) e
    exact ⟨⟨h.steady.cells hs, h.holding, ⟨held, e'⟩, h.told⟩, h.along, h.gathered⟩
  findsAlike_child {x y} h v key hv hmade := by
    obtain ⟨held, e⟩ := h.held
    have hchild : (x.forest.withHeld w (some held)).child v key =
        ((x.forest.child v key).1, (x.forest.child v key).2.withHeld w (some held)) :=
      Forest.child_withHeld (h.made hr) v key
    rw [← e] at hchild
    have hmade' : v.index < y.forest.wrappers.size := by rwa [e, Forest.size_withHeld]
    have hsteady := h.steady.child hr.kept.toOrdered hr.made hv hmade key
    refine ⟨by rw [hchild], ⟨⟨hsteady, ?_, ⟨held, congrArg Prod.snd hchild⟩, h.told⟩, h.along, ?_⟩,
      x.forest.size_le_child v key, fun c hc => ?_⟩
    · exact (Forest.holding_child hmade key).trans h.holding
    · rw [World.withForest, World.withForest, Forest.collected_child hmade,
        Forest.collected_child hmade', h.gathered]
    · have hasks := h.steady.kept.asks hmade (Prod.ext hc rfl : x.forest.child v key = (some c, _))
      exact ⟨hsteady.cache v key c hv hasks.cache, hasks.made⟩

/-- A batch at the wrapper itself joins the one of the second world, and is one of its own in the
first, if it is not inside another. -/
theorem Gathers.batch_self (hr : f.Ready w) {body body' : TreeM (List Telling) Unit}
    (hbody : ∀ i, Mirrors (Gathers f w i) body body' (fun _ => Gathers f w i) (Beside f w i))
    (i : WrapperRef → Bool) : Mirrors (Gathers f w i) (TreeM.batchWith TreeM.logging w body)
      (TreeM.batchWith TreeM.logging w body') (fun _ => Gathers f w i) (Beside f w i) := by
  intro x y h
  have hy : y.forest.holding w = true := by rw [h.holding_right hr, Function.update_self]
  have hdestroyed := (Gathers.transparent hr i).destroyed h w
  cases hlive : (x.forest.wrapper w).destroyed with
  | true =>
    rw [TreeM.batchWith_of_destroyed hlive, TreeM.batchWith_of_destroyed (hdestroyed.trans hlive),
      (Gathers.transparent hr i).nodeAt h]
    exact ⟨rfl, h.toBeside⟩
  | false =>
  rw [TreeM.batchWith_of_holding (hdestroyed.trans hlive) hy]
  cases hw : i w with
  | true =>
    rw [TreeM.batchWith_of_holding hlive ((congrFun h.holding w).trans hw)]
    exact hbody i x y h
  | false =>
    have hx : x.forest.holding w = false := (congrFun h.holding w).trans hw
    have hbegun : Gathers f w (Function.update i w true) (x.hold w (some [])) y := by
      refine ⟨h.holdFirst hr (some []), h.along, ?_⟩
      rw [World.collected_hold (h.made hr), h.gathered, Forest.collected,
        Forest.batched_of_holding hx]
      rfl
    cases hrun : body (x.hold w (some [])) with
    | ok a x' =>
      obtain ⟨y', hrun', h'⟩ := (hbody _).ok hbegun hrun
      obtain ⟨z, hannounce, hz⟩ := h'.flush hr hw
      rw [TreeM.batchWith_of_ok hlive hx hrun, hrun', bind_of_ok hannounce]
      exact ⟨rfl, hz⟩
    | error e x' =>
      obtain ⟨y', hrun', h'⟩ := (hbody _).error hbegun hrun
      rw [TreeM.batchWith_of_error hlive hx hrun, hrun']
      have hbeside := h'.holdFirst hr none
      rw [Function.update_idem, Option.isSome_none, ← hw, Function.update_eq_self] at hbeside
      exact ⟨rfl, hbeside⟩

/-- A batch at another wrapper is one in both worlds. -/
theorem Gathers.batch_other (hr : f.Ready w) (hv : f.Beneath w v) (hne : v ≠ w)
    {body body' : TreeM (List Telling) Unit}
    (hbody : ∀ i, Mirrors (Gathers f w i) body body' (fun _ => Gathers f w i) (Beside f w i))
    (i : WrapperRef → Bool) {n : ℕ} (hn : v.index < n) :
    Mirrors (Made (Gathers f w i) n) (TreeM.batchWith TreeM.logging v body)
      (TreeM.batchWith TreeM.logging v body') (fun _ => Gathers f w i) (Beside f w i) := by
  have hholding : ∀ x y, Gathers f w i x y → x.forest.holding v = i v ∧ y.forest.holding v = i v :=
    fun x y h => ⟨congrFun h.holding v, by rw [h.holding_right hr, Function.update_of_ne hne]⟩
  cases hi : i v with
  | true =>
    refine (TreeM.batchWith_joined (Gathers.transparent hr i) (fun _ _ h => h.toBeside)
      (fun x y h => ?_) (hbody i)).mono (fun _ _ h => h.1) (fun _ _ _ h => h) fun _ _ h => h
    rw [← hi]
    exact hholding x y h
  | false =>
    have hback : Function.update (Function.update i v true) v false = i := by
      rw [Function.update_idem, ← hi, Function.update_eq_self]
    refine TreeM.batchWith_opened (Gathers.transparent hr i) (fun _ _ h => h.toBeside)
      (fun x y h => ?_) (hbody (Function.update i v true)) (fun x y h => ⟨?_, ?_⟩) (fun x y h => ?_)
      (Gathers.announces hr hv i)
    · rw [← hi, (hholding x y h.1).1, (hholding x y h.1).2]
      exact ⟨rfl, rfl, h.1.hold hr hv hne (some []) (.inl (Nat.lt_of_lt_of_le hn h.2))⟩
    · obtain ⟨held, e⟩ := h.held
      rw [e, Forest.collected_withHeld_of_ne hne]
    · rw [← hback]
      exact h.hold hr hv hne none (.inr rfl)
    · rw [← hback]
      exact h.hold hr hv hne none (.inr rfl)

/-- With a batch at the wrapper or without, a course of changes at and below it does the same. -/
theorem Gathers.twins (hr : f.Ready w) :
    Twins (f.Beneath w) (Gathers f w) (Beside f w) TreeM.logging TreeM.logging where
  transparent := Gathers.transparent hr
  fails _ _ _ h := h.toBeside
  announces i v paths hv := Gathers.announces hr hv i paths
  batches v body body' hv hbody i n hn := by
    by_cases hne : v = w
    · subst hne
      exact (Gathers.batch_self hr hbody i).mono (fun _ _ h => h.1) (fun _ _ _ h => h)
        fun _ _ h => h
    · exact Gathers.batch_other hr hv hne hbody i hn

end Together

end LiveTree
