import LiveTree.Proofs.Tree.Held
import LiveTree.Proofs.Tree.Revision

/-! Changes at and below a wrapper, seen from above. Whatever they do, the wrapper keeps its place
and its subscribers, the wrappers above it do not change at all, and the line of the wrapper is as
it was. So an announcement from below either stays below or gets to the wrapper and goes on along
the same line. -/

namespace LiveTree

namespace Forest

variable {f g : Forest} {v w c p : WrapperRef} {key : String}

/-- Whether a wrapper is another one or below it, or was made after it with all that is above. -/
def Beneath (f : Forest) (w v : WrapperRef) : Prop :=
  w ∈ v :: f.ancestors v ∨ ∀ a ∈ v :: f.ancestors v, w.index < a.index

instance : Decidable (f.Beneath w v) := inferInstanceAs (Decidable (_ ∨ _))

theorem Beneath.refl (f : Forest) (w : WrapperRef) : f.Beneath w w := .inl List.mem_cons_self

/-- What has not been made yet will be made after all that there is. -/
theorem Beneath.of_size_le (hw : w.index < f.wrappers.size) (h : f.wrappers.size ≤ v.index) :
    f.Beneath w v := by
  refine .inr fun a ha => ?_
  rw [ancestors_eq_nil (by rw [wrapper_of_size_le h]; rfl)] at ha
  rw [List.mem_singleton.mp ha]
  exact Nat.lt_of_lt_of_le hw h

theorem Beneath.eq_or_lt (h : f.Beneath w v) (ho : f.Ordered) : v = w ∨ w.index < v.index := by
  rcases h with h | h
  · rcases List.mem_cons.mp h with rfl | h
    exacts [.inl rfl, .inr (lt_of_mem_ancestors ho h)]
  · exact .inr (h v List.mem_cons_self)

theorem Beneath.not_mem_ancestors (h : f.Beneath w v) (ho : f.Ordered) : v ∉ f.ancestors w := by
  intro hv
  have hlt := lt_of_mem_ancestors ho hv
  rcases h.eq_or_lt ho with rfl | h <;> omega

theorem Beneath.not_mem (h : f.Beneath w v) (ho : f.Ordered) (hne : v ≠ w) :
    v ∉ w :: f.ancestors w := by
  rw [List.mem_cons, not_or]
  exact ⟨hne, h.not_mem_ancestors ho⟩

theorem Beneath.parent (h : f.Beneath w v) (ho : f.Ordered) (hne : v ≠ w)
    (hp : (f.wrapper v).parent = some p) : f.Beneath w p := by
  rw [Beneath, ancestors_eq_cons ho hp] at h
  refine h.imp (fun h => ?_) fun h a ha => h a (List.mem_cons_of_mem v ha)
  exact (List.mem_cons.mp h).resolve_left fun e => hne e.symm

theorem Beneath.cache (h : f.Beneath w v) (hk : f.Kept)
    (hc : (f.wrapper v).cache.get? key = some c) : f.Beneath w c := by
  have hafter := hk.after v key c hc
  have hlt : w.index < c.index := by
    rcases h.eq_or_lt hk.toOrdered with rfl | h <;> omega
  cases hlive : (f.wrapper c).destroyed with
  | true =>
    refine .inr fun a ha => ?_
    rw [ancestors_eq_nil (hk.alone c hlive)] at ha
    rwa [List.mem_singleton.mp ha]
  | false =>
    have hparent := (hk.place v key c hc hlive).1
    rw [Beneath, ancestors_eq_cons hk.toOrdered hparent]
    exact h.imp (List.mem_cons_of_mem c) fun h => List.forall_mem_cons.mpr ⟨hlt, h⟩

/-- Whether a forest comes from another by changes at and below a wrapper. -/
structure Steady (f : Forest) (w : WrapperRef) (g : Forest) : Prop where
  kept : g.Kept
  size_le : f.wrappers.size ≤ g.wrappers.size
  before : ∀ a, a.index < w.index → g.wrapper a = f.wrapper a
  self : ∃ cache held, g.wrapper w = { f.wrapper w with cache := cache, batched := held }
  children : f.store.KeepsChildren g.store
  parent : ∀ v p, f.Beneath w v → v ≠ w → (g.wrapper v).parent = some p → f.Beneath w p
  cache : ∀ v key c, f.Beneath w v → (g.wrapper v).cache.get? key = some c → f.Beneath w c

namespace Steady

theorem refl (hk : f.Kept) (w : WrapperRef) : Steady f w f where
  kept := hk
  size_le := Nat.le_refl _
  before _ _ := rfl
  self := ⟨_, _, rfl⟩
  children := .refl _
  parent _ _ hv hne hp := hv.parent hk.toOrdered hne hp
  cache _ _ _ hv hc := hv.cache hk hc

variable (h : Steady f w g)

include h

theorem cells {s : Store} (hs : g.store.KeepsChildren s) :
    Steady f w { g with store := s } :=
  { h with
    kept := h.kept.store s
    children := h.children.trans hs }

theorem withHeld (ho : f.Ordered) (hv : f.Beneath w v) (held : Option (List Path)) :
    Steady f w (g.withHeld v held) where
  kept := h.kept.withHeld v held
  size_le := by rw [size_withHeld]; exact h.size_le
  before a ha := by
    have hne : a ≠ v := by
      rintro rfl
      rcases hv.eq_or_lt ho with rfl | hlt <;> omega
    rw [wrapper_withHeld_of_ne hne, h.before a ha]
  self := by
    obtain ⟨b, e⟩ := g.wrapper_withHeld v held w
    obtain ⟨cache, _, e'⟩ := h.self
    exact ⟨cache, b, by rw [e, e']⟩
  children := h.children
  parent a p ha hne hp := h.parent a p ha hne (by rwa [parent_withHeld] at hp)
  cache a key c ha hc := h.cache a key c ha (by rwa [cache_withHeld] at hc)

theorem child (ho : f.Ordered) (hw : w.index < f.wrappers.size) (hv : f.Beneath w v)
    (hmade : v.index < g.wrappers.size) (key : String) : Steady f w (g.child v key).2 := by
  have hbeyond := h.kept.beyond_child hmade key
  have hgains := fun a => g.child_gains hmade key a
  have hindex := hv.eq_or_lt ho
  refine ⟨h.kept.child hmade key, Nat.le_trans h.size_le (g.size_le_child v key),
    ?_, ?_, ?_, ?_, ?_⟩
  · intro a ha
    rw [hbeyond.before a (by rcases hindex with rfl | hlt <;> omega), h.before a ha]
  · obtain ⟨cache, held, e⟩ := h.self
    rcases hindex with rfl | hlt
    · obtain ⟨cache', e'⟩ := hbeyond.self
      exact ⟨cache', held, by rw [e', e]⟩
    · exact ⟨cache, held, by rw [hbeyond.before w hlt, e]⟩
  · rw [hbeyond.store]
    exact h.children
  · intro a p ha hne hp
    rcases (hgains a).1 p hp with hp | rfl
    exacts [h.parent a p ha hne hp, hv]
  · intro a k c ha hc
    rcases (hgains a).2 k c hc with hc | hc
    exacts [h.cache a k c ha hc, .of_size_le hw (hc ▸ h.size_le)]

/-- Where an announcement ends is beneath, if the line begins there and goes on there. -/
theorem collect (ho : f.Ordered) {line : List Station} (hline : ∀ q ∈ line, f.Beneath w q.1)
    (paths : List Path) : Steady f w (g.collect line paths) := by
  rw [Forest.collect]
  split
  · exact h
  · rename_i q hq
    exact h.withHeld ho (hline q (List.mem_of_find?_eq_some hq)) _

/-- The line of the wrapper is as it was. -/
theorem line_eq (hf : f.WellFormed) (ho : f.Ordered) : g.line w = f.line w := by
  refine line_congr (P := fun a => a = w ∨ a.index < w.index) (fun a ha => ?_)
    (fun a ha => ?_) (fun a p ha hp => ?_) (.inl rfl)
  · rcases ha with rfl | ha
    · obtain ⟨cache, held, e⟩ := h.self
      rw [e]
      exact ⟨rfl, rfl, rfl⟩
    · rw [h.before a ha]
      exact ⟨rfl, rfl, rfl⟩
  · have hnode : (g.wrapper a).node = (f.wrapper a).node := by
      rcases ha with rfl | ha
      · obtain ⟨cache, held, e⟩ := h.self
        rw [e]
      · rw [h.before a ha]
    rw [nodeAt, nodeAt, hnode]
    exact (h.children _ (hf.has_node a)).2
  · have hlt := ho.parent_lt a p hp
    rcases ha with rfl | ha <;> omega

/-- An announcement from beneath stays below the wrapper, or gets to it and goes on along its line
with the keys that lead down. -/
theorem exists_line (hv : f.Beneath w v) : ∃ below : List Station,
    (∀ q ∈ below, f.Beneath w q.1 ∧ q.1 ≠ w) ∧
      (g.line v = below ∨ ∃ keys, g.line v = below ++ (g.line w).map (·.under keys)) := by
  obtain ⟨n, hn⟩ : ∃ n, v.index = n := ⟨_, rfl⟩
  induction n using Nat.strongRecOn generalizing v with
  | ind n ih =>
    by_cases hne : v = w
    · subst hne
      exact ⟨[], (fun _ hq => nomatch hq), .inr ⟨[], by simp [Station.under]⟩⟩
    cases hkey : g.keyInParent v with
    | none =>
      refine ⟨[(v, [])], fun q hq => ?_, .inl (line_of_none hkey)⟩
      rw [List.mem_singleton.mp hq]
      exact ⟨hv, hne⟩
    | some key =>
      obtain ⟨p, hp⟩ := exists_parent hkey
      have hlt := h.kept.parent_lt v p hp
      obtain ⟨below, hbelow, hline⟩ := ih p.index (by omega) (h.parent v p hv hne hp) rfl
      refine ⟨(v, []) :: below.map (·.under [key]),
        List.forall_mem_cons.mpr ⟨⟨hv, hne⟩, fun q hq => ?_⟩, ?_⟩
      · obtain ⟨q', hq', rfl⟩ := List.mem_map.mp hq
        exact hbelow q' hq'
      · rw [line_of_some h.kept.toOrdered hp hkey]
        rcases hline with e | ⟨keys, e⟩
        · exact .inl (by rw [e])
        · exact .inr ⟨keys ++ [key], by rw [e]; simp [Station.under]⟩

end Steady

end Forest

end LiveTree
