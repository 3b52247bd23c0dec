import LiveTree.Proofs.Text.Dotted
import LiveTree.Proofs.Tree.Announcement

/-! What subscribers are told. Filters are compared with changed paths as dotted texts, which comes
to the same as comparing segment by segment, as long as the segments can be told from the text: a
subscriber is told of the changes at or below the paths of its filter. Only the empty path is taken
in two ways. As a filter by itself it stands for the wrapper's node and so for everything; in a list
of paths it stands for changes of the node itself, and for nothing below. -/

namespace LiveTree

/-- Whether the segments of a path can be told from its dotted text. -/
def Path.Plain (path : Path) : Prop := ∀ key ∈ path, key ≠ "" ∧ '.' ∉ key.toList

namespace Path.Plain

variable {p q : Path}

theorem undotted_ne (hp : p.Plain) (hne : p ≠ []) : Text.undotted p ≠ "" := by
  intro hempty
  have hsingle : p = [""] := Text.undotted_inj (fun k hk => (hp k hk).2) (by simp) hne (by simp)
    hempty
  exact (hp "" (by rw [hsingle]; exact List.mem_cons_self)).1 rfl

theorem undotted_eq_iff (hp : p.Plain) (hq : q.Plain) :
    Text.undotted p = Text.undotted q ↔ p = q := by
  refine ⟨fun h => ?_, congrArg _⟩
  by_cases hp' : p = []
  · subst hp'
    by_contra hne
    exact hq.undotted_ne (Ne.symm hne) h.symm
  · by_cases hq' : q = []
    · subst hq'
      exact absurd h (hp.undotted_ne hp')
    · exact Text.undotted_inj (fun k hk => (hp k hk).2) (fun k hk => (hq k hk).2) hp' hq' h

/-- The text of a path does not start with a dot. -/
theorem not_dot_prefix (hp : p.Plain) : ¬ ['.'] <+: (Text.undotted p).toList := by
  rintro ⟨tail, htail⟩
  by_cases hne : p = []
  · simp [hne, Text.undotted] at htail
  · have hsplit := Text.splitOn_undotted (fun k hk => (hp k hk).2) hne
    rw [← htail, List.singleton_append, ← List.nil_append ('.' :: tail),
      List.splitOn_append_cons_self, List.splitOn_nil] at hsplit
    obtain ⟨key, hkey, hempty⟩ : ∃ key ∈ p, key.toList = [] :=
      List.mem_map.mp (hsplit ▸ List.mem_cons_self)
    exact (hp key hkey).1 (String.toList_eq_nil_iff.mp hempty)

end Path.Plain

namespace PathFilter

variable {p q : Path} {goals : List Path}

/-- The dotted text of a path covers that of another just if the path starts the other, except that
the empty text covers itself only. -/
theorem covers_undotted (hp : p.Plain) (hq : q.Plain) :
    covers (Text.undotted p) (Text.undotted q) = (p.isPrefixOf q && (!p.isEmpty || q.isEmpty)) := by
  rw [Bool.eq_iff_iff, covers, Bool.or_eq_true, beq_iff_eq, hq.undotted_eq_iff hp,
    List.isPrefixOf_iff_prefix, Bool.and_eq_true, List.isPrefixOf_iff_prefix]
  cases p with
  | nil =>
    have hdot : ¬ (Text.undotted []).toList ++ ['.'] <+: (Text.undotted q).toList :=
      hq.not_dot_prefix
    simp [hdot]
  | cons key rest =>
    rw [Text.undotted_below_iff (fun k hk => (hp k hk).2) (fun k hk => (hq k hk).2)
      (List.cons_ne_nil key rest)]
    constructor
    · rintro (rfl | ⟨tail, -, rfl⟩)
      · exact ⟨List.prefix_rfl, rfl⟩
      · exact ⟨List.prefix_append _ _, rfl⟩
    · rintro ⟨⟨tail, rfl⟩, -⟩
      by_cases htail : tail = []
      · exact .inl (by rw [htail, List.append_nil])
      · exact .inr ⟨tail, htail, rfl⟩

/-- A path as a filter admits what is at or below it. -/
theorem within_admits (hp : p.Plain) (hq : q.Plain) :
    (within (Text.undotted p)).admits (Text.undotted q) = p.isPrefixOf q := by
  rw [admits, covers_undotted hp hq]
  cases p with
  | nil => rfl
  | cons key rest =>
    have hne : (Text.undotted (key :: rest)).isEmpty = false := by
      simpa using hp.undotted_ne (List.cons_ne_nil _ _)
    simp [hne]

/-- Paths as a filter admit what is at or below one of them, but what is below the empty path only
if it is below another of them. -/
theorem withinAny_admits (hgoals : ∀ p ∈ goals, p.Plain) (hq : q.Plain) :
    (withinAny (goals.map Text.undotted)).admits (Text.undotted q) =
      goals.any fun p => p.isPrefixOf q && (!p.isEmpty || q.isEmpty) := by
  rw [admits, List.any_map, Bool.eq_iff_iff, List.any_eq_true, List.any_eq_true]
  refine exists_congr fun p => and_congr_right fun hp => ?_
  rw [Function.comp_apply, covers_undotted (hgoals p hp) hq]

/-- Texts that are not empty are taken in the same way in a list and alone. -/
theorem withinAny_admits_eq {paths : List String} (h : "" ∉ paths) (text : String) :
    (withinAny paths).admits text = paths.any fun path => (within path).admits text := by
  rw [admits, Bool.eq_iff_iff, List.any_eq_true, List.any_eq_true]
  refine exists_congr fun path => and_congr_right fun hpath => ?_
  have hne : path.isEmpty = false := by simpa using fun he : path = "" => h (he ▸ hpath)
  rw [admits, hne, Bool.false_or]

end PathFilter

section Delivering

variable {σ : Type} (notify : Notify σ) {f : Forest} {w : WrapperRef} {x : Subscriber}
  {filter : PathFilter} {changed : List Path} {test : Path → Bool}

namespace TreeM

/-- Tells a listener of changed paths, if there are any. -/
def deliver (listener : ℕ) (paths : List String) : TreeM σ Unit :=
  unless paths.isEmpty do notify listener paths

/-- Whether an operation subscribes a listener at a wrapper, after those who are subscribed there
already, in such a way that of certain changed paths it is told of some: whoever is told before and
after it, it is told of these, all at once and in order, or not at all if there are none. -/
def Subscribes (f : Forest) (u : σ) (w : WrapperRef) (m : TreeM σ ℕ) (listener : ℕ)
    (changed told : List Path) : Prop :=
  ∃ number g x, m ⟨f, u⟩ = .ok number ⟨g, u⟩ ∧
    (g.wrapper w).subscribers = (f.wrapper w).subscribers ++ [x] ∧ x.number = number ∧
    ∀ before after, tell notify (changed.map Text.undotted) (before ++ x :: after) = do
      tell notify (changed.map Text.undotted) before
      deliver notify listener (told.map Text.undotted)
      tell notify (changed.map Text.undotted) after

/-- In a round, the subscribers are told one after another of the paths that are admitted. -/
theorem tell_cons (paths : List String) (x : Subscriber) (rest : List Subscriber) :
    tell notify paths (x :: rest) =
      deliver notify x.listener (x.admitted paths) >>= fun _ => tell notify paths rest := by
  rw [tell, deliver]
  cases (x.admitted paths).isEmpty with
  | true => rfl
  | false => rfl

theorem tell_append (paths : List String) (l l' : List Subscriber) :
    tell notify paths (l ++ l') = tell notify paths l >>= fun _ => tell notify paths l' := by
  induction l with
  | nil => rfl
  | cons x rest ih => rw [List.cons_append, tell_cons, tell_cons, bind_assoc, ih]

end TreeM

/-- A filter goes by the segments of the changed paths if it admits their texts so. -/
theorem Subscriber.admitted_eq (hx : x.filter = some filter)
    (h : ∀ q ∈ changed, filter.admits (Text.undotted q) = test q) :
    x.admitted (changed.map Text.undotted) = (changed.filter test).map Text.undotted := by
  rw [admitted, hx]
  exact List.filter_map.trans (congrArg _ (List.filter_congr h))

namespace TreeM

theorem subscribe_subscribes (hmade : w.index < f.wrappers.size)
    (hlive : (f.wrapper w).destroyed = false) (u : σ) (listener : ℕ)
    (h : ∀ q ∈ changed, filter.admits (Text.undotted q) = test q) :
    Subscribes notify f u w (subscribe w listener (some filter)) listener changed
      (changed.filter test) := by
  let x : Subscriber := ⟨(f.wrapper w).issued + 1, listener, some filter⟩
  have hrun : subscribe w listener (some filter) ⟨f, u⟩ = .ok x.number
      ⟨f.modifyWrapper w fun y =>
        { y with issued := x.number, subscribers := y.subscribers ++ [x] }, u⟩ := by
    rw [subscribe, bind_of_ok (checkAlive_of_live hlive)]
    rfl
  refine ⟨_, _, x, hrun, ?_, rfl, fun before after => ?_⟩
  · exact congrArg Wrapper.subscribers (Forest.wrapper_modifyWrapper_self hmade)
  · rw [tell_append, tell_cons, Subscriber.admitted_eq (x := x) rfl h]

end TreeM

open TreeM

/-- A subscriber whose filter is a path is told of the changes at or below the path, and so is one
who watches the path. A subscriber whose filter is a list of paths, none of them empty, is told of
the changes at or below one of them, so of just what it would be told for each of them alone.
Whatever other paths the list holds, an empty one adds changes of the wrapper's node itself. All
this is for paths with segments that can be told from the dotted text, and in every round of
notifications. -/
theorem subscribers_told_by_segments (hmade : w.index < f.wrappers.size)
    (hlive : (f.wrapper w).destroyed = false) (u : σ) (listener : ℕ)
    (hchanged : ∀ q ∈ changed, q.Plain) :
    (∀ p : Path, p.Plain →
      Subscribes notify f u w (subscribe w listener (some (.within (Text.undotted p)))) listener
        changed (changed.filter p.isPrefixOf) ∧
      Subscribes notify f u w (watch w listener p) listener changed
        (changed.filter p.isPrefixOf)) ∧
    ∀ goals : List Path, (∀ p ∈ goals, p.Plain) →
      Subscribes notify f u w (subscribe w listener (some (.withinAny (goals.map Text.undotted))))
        listener changed
        (changed.filter fun q => goals.any fun p => p.isPrefixOf q && (!p.isEmpty || q.isEmpty)) ∧
      ([] ∉ goals →
        Subscribes notify f u w
          (subscribe w listener (some (.withinAny (goals.map Text.undotted)))) listener changed
          (changed.filter fun q => goals.any (·.isPrefixOf q)) ∧
        ∀ number text, text ∈ (Subscriber.mk number listener
            (some (.withinAny (goals.map Text.undotted)))).admitted (changed.map Text.undotted) ↔
          ∃ p ∈ goals, text ∈ (Subscriber.mk number listener
            (some (.within (Text.undotted p)))).admitted (changed.map Text.undotted)) := by
  have hwithin : ∀ p : Path, p.Plain → ∀ q ∈ changed,
      (PathFilter.within (Text.undotted p)).admits (Text.undotted q) = p.isPrefixOf q :=
    fun p hp q hq => PathFilter.within_admits hp (hchanged q hq)
  refine ⟨fun p hp => ?_, fun goals hgoals => ?_⟩
  · have hpath := subscribe_subscribes notify hmade hlive u listener (hwithin p hp)
    exact ⟨hpath, hpath⟩
  · have hany : ∀ q ∈ changed, _ := fun q hq =>
      PathFilter.withinAny_admits hgoals (hchanged q hq)
    refine ⟨subscribe_subscribes notify hmade hlive u listener hany, fun hsome => ?_⟩
    have hne : "" ∉ goals.map Text.undotted := by
      intro hempty
      obtain ⟨p, hp, he⟩ := List.mem_map.mp hempty
      exact (hgoals p hp).undotted_ne (fun h => hsome (h ▸ hp)) he
    have hprefix : ∀ q ∈ changed, (PathFilter.withinAny (goals.map Text.undotted)).admits
        (Text.undotted q) = goals.any (·.isPrefixOf q) := by
      intro q hq
      rw [PathFilter.withinAny_admits_eq hne, List.any_map, Bool.eq_iff_iff, List.any_eq_true,
        List.any_eq_true]
      refine exists_congr fun p => and_congr_right fun hp => ?_
      rw [Function.comp_apply, hwithin p (hgoals p hp) q hq]
    refine ⟨subscribe_subscribes notify hmade hlive u listener hprefix, fun number text => ?_⟩
    simp only [Subscriber.admitted, List.mem_filter, PathFilter.withinAny_admits_eq hne,
      List.any_map, List.any_eq_true, Function.comp_apply]
    constructor
    · rintro ⟨htext, p, hp, hadmits⟩
      exact ⟨p, hp, htext, hadmits⟩
    · rintro ⟨p, hp, htext, hadmits⟩
      exact ⟨htext, p, hp, hadmits⟩

end Delivering

/-- Of an address that changes in its city and of changes elsewhere, a listener that watches the
address is told of the first, and one that is subscribed to the address and the name too. -/
theorem wrappedForm_told :
    TreeM.Subscribes (TreeM.noting fun l c => l ++ [c]) Forest.wrappedForm [] ⟨0⟩
      (TreeM.watch ⟨0⟩ 0 ["address"]) 0 [["addresses"], ["address", "city"], []]
      [["address", "city"]] ∧
    TreeM.Subscribes (TreeM.noting fun l c => l ++ [c]) Forest.wrappedForm [] ⟨0⟩
      (TreeM.subscribe ⟨0⟩ 0 (some (.withinAny ["name", "address"]))) 0
      [["addresses"], ["address", "city"], []] [["address", "city"]] := by
  have hchanged : ∀ q ∈ [["addresses"], ["address", "city"], []], Path.Plain q := by
    simp [Path.Plain]
  obtain ⟨halone, hlist⟩ := subscribers_told_by_segments (TreeM.noting fun l c => l ++ [c])
    (f := Forest.wrappedForm) (w := ⟨0⟩) (by decide) rfl [] 0 hchanged
  refine ⟨(halone ["address"] (by simp [Path.Plain])).2, ?_⟩
  exact ((hlist [["name"], ["address"]] (by simp [Path.Plain])).2 (by decide)).1

end LiveTree
