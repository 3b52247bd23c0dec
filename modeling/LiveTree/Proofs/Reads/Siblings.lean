import LiveTree.Proofs.Reads.Browsing
import LiveTree.Proofs.Reads.Traversals

/-! The children of a wrapper stand in line. Which child is next to another is found by key among
the names that the node has now, while the children themselves come from what the wrapper keeps;
both go together as long as a wrapper that is kept under a key stands there. So the next of one
child has this child before it, and going on from the first child meets all of them. -/

namespace LiveTree

namespace Forest

variable {f g : Forest} {p c d : WrapperRef} {key : String} {before after ks : List String}
  {cs : List WrapperRef}

/-! ### Names in line -/

theorem following_eq (h : key ∉ before) : following key (before ++ key :: after) = after.head? := by
  induction before with
  | nil => exact if_pos rfl
  | cons a rest ih =>
    obtain ⟨hne, hrest⟩ := not_or.mp (mt List.mem_cons.mpr h)
    exact (if_neg (Ne.symm hne)).trans (ih hrest)

/-- Backwards, the name before another follows it. -/
theorem following_reverse_eq (h : key ∉ after) :
    following key (before ++ key :: after).reverse = before.getLast? := by
  rw [List.reverse_append, List.reverse_cons, List.append_assoc, List.singleton_append,
    following_eq (mt List.mem_reverse.mp h), List.head?_reverse]

/-! ### Kept children -/

theorem along_key_iff : f.Along p [key] c ↔ (f.wrapper p).cache.get? key = some c ∧
    (f.nodeAt p).children.get? key = some (f.wrapper c).node := by
  constructor
  · intro h
    cases h with
    | child hkept hnode h =>
      cases h
      exact ⟨hkept, hnode⟩
  · rintro ⟨hkept, hnode⟩
    exact .child hkept hnode (.here c)

theorem child_eq_of_along (h : f.Along p [key] c) : f.child p key = (some c, f) := by
  obtain ⟨hkept, hnode⟩ := along_key_iff.mp h
  simp [child, hkept, hnode]

theorem along_unique (hc : f.Along p [key] c) (hd : f.Along p [key] d) : c = d :=
  Option.some.inj ((along_key_iff.mp hc).1.symm.trans (along_key_iff.mp hd).1)

theorem mem_keys_of_along (h : f.Along p [key] c) : key ∈ (f.nodeAt p).children.keys :=
  List.mem_map_of_mem (Entries.get?_eq_some_iff.mp (along_key_iff.mp h).2)

/-- A wrapper with a parent, which still holds its node under its key, is the one kept there. -/
theorem Placed.along_of_parent (hf : f.Placed) (hparent : (f.wrapper c).parent = some p)
    (hkey : f.keyInParent c = some key) : f.Along p [key] c := by
  obtain ⟨k, hk, hkept⟩ := hf.held c p hparent
  simp only [keyInParent, hparent, hk, Option.bind_eq_bind, Option.bind_some,
    Option.ite_none_right_eq_some, Option.some.injEq] at hkey
  obtain ⟨hnode, rfl⟩ := hkey
  exact along_key_iff.mpr ⟨hkept, hnode⟩

/-- Whether wrappers are kept for the children under some keys, in this order. -/
def Keeps (f : Forest) (p : WrapperRef) : List String → List WrapperRef → Prop :=
  List.Forall₂ fun key c => f.Along p [key] c

namespace Keeps

theorem childrenAt_eq (h : f.Keeps p ks cs) : f.childrenAt p ks = (cs, f) := by
  induction h with
  | nil => rfl
  | cons hc _ ih =>
    rw [childrenAt, child_eq_of_along hc]
    dsimp only
    rw [ih]
    rfl

theorem mem (h : f.Keeps p ks cs) (hc : c ∈ cs) : ∃ key ∈ ks, f.Along p [key] c := by
  induction h with
  | nil => cases hc
  | @cons k d _ _ hd _ ih =>
    rcases List.mem_cons.mp hc with rfl | hc
    · exact ⟨k, List.mem_cons_self, hd⟩
    · obtain ⟨key, hkey, hc⟩ := ih hc
      exact ⟨key, List.mem_cons_of_mem _ hkey, hc⟩

/-- Each wrapper is kept in one place only. -/
theorem nodup (h : f.Keeps p ks cs) (hf : f.Placed) (hks : ks.Nodup) : cs.Nodup := by
  induction h with
  | nil => exact .nil
  | @cons k c _ _ hc hrest ih =>
    obtain ⟨hk, hks⟩ := List.nodup_cons.mp hks
    refine List.nodup_cons.mpr ⟨fun hmem => ?_, ih hks⟩
    obtain ⟨k', hk', hc'⟩ := mem hrest hmem
    obtain ⟨-, rfl⟩ := hf.once p k p k' c (along_key_iff.mp hc).1 (along_key_iff.mp hc').1
    exact hk hk'

/-- The wrappers that are kept for the first and the last of the children. -/
theorem child_head? (h : f.Keeps p ks cs) :
    (match ks.head? with
    | some k => f.child p k
    | none => (none, f)) = (cs.head?, f) := by
  cases h with
  | nil => rfl
  | cons hc _ => exact child_eq_of_along hc

theorem child_getLast? (h : f.Keeps p ks cs) :
    (match ks.getLast? with
    | some k => f.child p k
    | none => (none, f)) = (cs.getLast?, f) := by
  rw [← List.head?_reverse, ← List.head?_reverse]
  exact child_head? (List.forall₂_reverse_iff.mpr h)

theorem split (h : f.Keeps p (before ++ key :: after) cs) (hc : f.Along p [key] c) :
    ∃ front back, cs = front ++ c :: back ∧ f.Keeps p before front ∧ f.Keeps p after back := by
  induction before generalizing cs with
  | nil =>
    cases h with
    | @cons _ d _ back hd hback =>
      obtain rfl := along_unique hc hd
      exact ⟨[], back, rfl, .nil, hback⟩
  | cons k rest ih =>
    cases h with
    | @cons _ d _ _ hd h =>
      obtain ⟨front, back, rfl, hfront, hback⟩ := ih h
      exact ⟨d :: front, back, rfl, .cons hd hfront, hback⟩

end Keeps

theorem Placed.gives_of_mem (hf : f.Placed) (hp : p.index < f.wrappers.size)
    (hkey : key ∈ (f.nodeAt p).children.keys) :
    ∃ c g, f.child p key = (some c, g) ∧ Gives p key f c g := by
  refine (child_gives hf hp key).resolve_left fun ⟨hnone, _⟩ => ?_
  have hcontains := Entries.contains_of_mem_keys hkey
  rw [Entries.contains, hnone] at hcontains
  cases hcontains

/-- Asking for children that are there is browsing, and all of them are kept then. -/
theorem Arises.childrenAt_keeps (hf : f.Arises false) (hp : p.index < f.wrappers.size)
    (hks : ks ⊆ (f.nodeAt p).children.keys) :
    ∃ cs g, f.childrenAt p ks = (cs, g) ∧ Roamed p f g ∧ g.Keeps p ks cs := by
  induction ks generalizing f with
  | nil => exact ⟨[], f, rfl, .refl f p, .nil⟩
  | cons k rest ih =>
    obtain ⟨hk, hrest⟩ := List.cons_subset.mp hks
    obtain ⟨c, g, hchild, hgives⟩ := hf.placed.gives_of_mem hp hk
    have hb := hgives.roamed
    obtain ⟨cs, h, hcs, hb', hkeeps⟩ :=
      ih (hb.arises false hf) (hb.made hp) (hb.nodeAt_eq ▸ hrest)
    refine ⟨c :: cs, h, ?_, hb.trans hb', .cons (hb'.along hgives.along) hkeeps⟩
    rw [childrenAt, hchild]
    dsimp only
    rw [hcs]
    rfl

/-- What asking for all children leaves. -/
theorem Arises.children_keeps (hf : f.Arises false) (hp : p.index < f.wrappers.size) :
    ∃ cs g, f.children p = (cs, g) ∧ Roamed p f g ∧ g.Keeps p (f.nodeAt p).children.keys cs ∧
      cs.Nodup ∧ g.children p = (cs, g) := by
  obtain ⟨cs, g, hcs, hb, hkeeps⟩ := hf.childrenAt_keeps hp (List.Subset.refl _)
  have hnodup := hkeeps.nodup (hb.arises false hf).placed (f.nodeAt p).children.nodup
  refine ⟨cs, g, hcs, hb, hkeeps, hnodup, ?_⟩
  rw [children, hb.nodeAt_eq]
  exact hkeeps.childrenAt_eq

/-! ### Next to a child -/

theorem Arises.siblingBy_eq (hf : f.Arises false) (hc : f.Along p [key] c)
    (next : String → List String → Option String) : f.siblingBy next c =
      match next key (f.nodeAt p).children.keys with
      | some k => f.child p k
      | none => (none, f) := by
  obtain ⟨hkept, hnode⟩ := along_key_iff.mp hc
  obtain ⟨hparent, hkey⟩ := hf.kept.place p key c hkept (hf.lively p key c hkept)
  have hname := keyInParent_eq_some hparent hkey hnode
  cases hnext : next key (f.nodeAt p).children.keys <;>
    simp only [siblingBy, hparent, hname, hnext]

section

variable (hf : f.Arises false) (hc : f.Along p [key] c)
  (hkeys : (f.nodeAt p).children.keys = before ++ key :: after)

include hkeys in
theorem not_mem_of_keys_eq : key ∉ before ∧ key ∉ after := by
  have hnodup : (before ++ key :: after).Nodup := hkeys ▸ (f.nodeAt p).children.nodup
  have hmem := (List.nodup_middle.mp hnodup).notMem
  exact ⟨fun h => hmem (List.mem_append_left _ h), fun h => hmem (List.mem_append_right _ h)⟩

include hf hc hkeys

theorem Arises.nextSibling_eq : f.nextSibling c =
    match after.head? with
    | some k => f.child p k
    | none => (none, f) := by
  rw [nextSibling, hf.siblingBy_eq hc, hkeys, following_eq (not_mem_of_keys_eq hkeys).1]

theorem Arises.previousSibling_eq : f.previousSibling c =
    match before.getLast? with
    | some k => f.child p k
    | none => (none, f) := by
  rw [previousSibling, hf.siblingBy_eq hc, hkeys, following_reverse_eq (not_mem_of_keys_eq hkeys).2]

end

/-- What a wrapper gives under a key is kept there then. -/
theorem Arises.along_of_child (hf : f.Arises false) (hp : p.index < f.wrappers.size)
    (h : f.child p key = (some d, g)) :
    g.Arises false ∧ g.Along p [key] d ∧ Roamed p f g := by
  rcases child_gives hf.placed hp key with ⟨-, e⟩ | ⟨d', g', e, hgives⟩
  · rw [e] at h
    cases h
  · rw [e] at h
    cases h
    exact ⟨hgives.roamed.arises false hf, hgives.along, hgives.roamed⟩

/-- A child is before the child that is next to it. -/
theorem Arises.previousSibling_of_next (hf : f.Arises false) (hp : p.index < f.wrappers.size)
    (hc : f.Along p [key] c) (h : f.nextSibling c = (some d, g)) :
    g.previousSibling d = (some c, g) := by
  obtain ⟨before, after, hkeys⟩ := List.append_of_mem (mem_keys_of_along hc)
  rw [hf.nextSibling_eq hc hkeys] at h
  cases after with
  | nil => cases h
  | cons k after =>
    obtain ⟨hg, hd, hb⟩ := hf.along_of_child hp h
    have hkeys : (g.nodeAt p).children.keys = (before ++ [key]) ++ k :: after := by
      rw [hb.nodeAt_eq, hkeys, List.append_assoc, List.singleton_append]
    rw [hg.previousSibling_eq hd hkeys, List.getLast?_append, List.getLast?_singleton]
    exact child_eq_of_along (hb.along hc)

/-- A child is next to the child that is before it. -/
theorem Arises.nextSibling_of_previous (hf : f.Arises false) (hp : p.index < f.wrappers.size)
    (hc : f.Along p [key] c) (h : f.previousSibling c = (some d, g)) :
    g.nextSibling d = (some c, g) := by
  obtain ⟨before, after, hkeys⟩ := List.append_of_mem (mem_keys_of_along hc)
  rw [hf.previousSibling_eq hc hkeys] at h
  cases before using List.reverseRecOn with
  | nil => cases h
  | append_singleton before k =>
    rw [List.getLast?_append, List.getLast?_singleton] at h
    obtain ⟨hg, hd, hb⟩ := hf.along_of_child hp h
    have hkeys : (g.nodeAt p).children.keys = before ++ k :: key :: after := by
      rw [hb.nodeAt_eq, hkeys, List.append_assoc, List.singleton_append]
    rw [hg.nextSibling_eq hd hkeys]
    exact child_eq_of_along (hb.along hc)

/-! ### Going on from child to child -/

/-- What going on to the next sibling, again and again until there is none, meets and leaves. -/
inductive Succession : Forest → WrapperRef → List WrapperRef → Forest → Prop
  | last {f g : Forest} {c : WrapperRef} (h : f.nextSibling c = (none, g)) : Succession f c [c] g
  | next {f g h : Forest} {c d : WrapperRef} {ds : List WrapperRef}
      (hnext : f.nextSibling c = (some d, g)) (hrest : Succession g d ds h) :
      Succession f c (c :: ds) h

/-- Going on from a child meets what asking for the children under the keys from there on gives. -/
theorem Arises.succession (hf : f.Arises false) (hp : p.index < f.wrappers.size)
    (hkeys : (f.nodeAt p).children.keys = before ++ key :: after) (hc : f.Along p [key] c)
    (hcs : f.childrenAt p after = (cs, g)) : Succession f c (c :: cs) g := by
  induction after generalizing f before key c cs with
  | nil =>
    cases hcs
    exact .last (hf.nextSibling_eq hc hkeys)
  | cons k after ih =>
    have hk : k ∈ (f.nodeAt p).children.keys := by rw [hkeys]; simp
    obtain ⟨d, h, hchild, hgives⟩ := hf.placed.gives_of_mem hp hk
    have hb := hgives.roamed
    rw [childrenAt, hchild] at hcs
    cases hcs
    have hafter : (h.nodeAt p).children.keys = (before ++ [key]) ++ k :: after := by
      rw [hb.nodeAt_eq, hkeys, List.append_assoc, List.singleton_append]
    refine .next ((hf.nextSibling_eq hc hkeys).trans hchild) ?_
    exact ih (hb.arises false hf) (hb.made hp) hafter hgives.along rfl

/-- Going on from the first child meets the children. -/
theorem Arises.succession_first (hf : f.Arises false) (hp : p.index < f.wrappers.size)
    (hkeys : (f.nodeAt p).children.keys = key :: ks) :
    ∃ first cs g h, f.child p key = (some first, h) ∧ f.children p = (first :: cs, g) ∧
      Succession h first (first :: cs) g := by
  have hkey : key ∈ (f.nodeAt p).children.keys := hkeys ▸ List.mem_cons_self
  obtain ⟨first, h, hchild, hgives⟩ := hf.placed.gives_of_mem hp hkey
  have hb := hgives.roamed
  refine ⟨first, (h.childrenAt p ks).1, (h.childrenAt p ks).2, h, hchild, ?_, ?_⟩
  · rw [children, hkeys, childrenAt, hchild]
    rfl
  · have hkeysh : (h.nodeAt p).children.keys = [] ++ key :: ks := hb.nodeAt_eq ▸ hkeys
    exact (hb.arises false hf).succession (hb.made hp) hkeysh hgives.along rfl

/-- If all children are kept, going on from the first leaves all as it is. -/
theorem Arises.succession_kept (hf : f.Arises false) (hp : p.index < f.wrappers.size)
    (h : f.Keeps p (f.nodeAt p).children.keys (c :: cs)) : Succession f c (c :: cs) f := by
  cases hkeys : (f.nodeAt p).children.keys with
  | nil =>
    rw [hkeys] at h
    cases h
  | cons k ks =>
    rw [hkeys] at h
    cases h with
    | cons hc hcs =>
      have hkeys : (f.nodeAt p).children.keys = [] ++ k :: ks := hkeys
      exact hf.succession hp hkeys hc (Keeps.childrenAt_eq hcs)

theorem siblings_eq (hparent : (f.wrapper c).parent = some p) (h : f.children p = (cs, g)) :
    f.siblings c = (cs.filter (· ≠ c), g) := by
  rw [siblings, hparent]
  dsimp only
  rw [h]

end Forest

open Forest in
/-- As long as no wrapper is destroyed on request, the children of the parent of a wrapper are this
wrapper, in one place, and its siblings, which are the others in the same order. Each is before the
one next to it and next to the one before it, also if they are only made then. Whoever starts at the
first child and goes on to the next until there is none meets all of them, each once. -/
theorem siblings_in_line {f : Forest} {p c : WrapperRef} {key : String} (hf : f.Arises false)
    (hparent : (f.wrapper c).parent = some p) (hkey : f.keyInParent c = some key) :
    ∃ before after g,
      f.children p = (before ++ c :: after, g) ∧
      f.siblings c = (before ++ after, g) ∧
      (before ++ c :: after).Nodup ∧
      g.children p = (before ++ c :: after, g) ∧
      g.nextSibling c = (after.head?, g) ∧
      g.previousSibling c = (before.getLast?, g) ∧
      (∀ d h, f.nextSibling c = (some d, h) → h.previousSibling d = (some c, h)) ∧
      (∀ d h, f.previousSibling c = (some d, h) → h.nextSibling d = (some c, h)) ∧
      (∃ k first h, (f.nodeAt p).children.keys.head? = some k ∧ f.child p k = (some first, h) ∧
        Succession h first (before ++ c :: after) g) ∧
      ∃ first, (before ++ c :: after).head? = some first ∧
        Succession g first (before ++ c :: after) g := by
  have hc := hf.placed.along_of_parent hparent hkey
  have hp : p.index < f.wrappers.size :=
    lt_size_of_mem_cache (Entries.mem_values_of_get? (along_key_iff.mp hc).1)
  obtain ⟨cs, g, hchildren, hb, hkeeps, hnodup, hagain⟩ := hf.children_keeps hp
  have hg := hb.arises false hf
  have hcg := hb.along hc
  have hfirst : ∃ k first h, (f.nodeAt p).children.keys.head? = some k ∧
      f.child p k = (some first, h) ∧ Succession h first cs g := by
    obtain ⟨k, ks, hkeys⟩ := List.exists_cons_of_ne_nil (List.ne_nil_of_mem (mem_keys_of_along hc))
    obtain ⟨first, others, g', h, hchild, hall, hwalk⟩ := hf.succession_first hp hkeys
    obtain ⟨rfl, rfl⟩ := Prod.mk.inj (hchildren.symm.trans hall)
    exact ⟨k, first, h, hkeys ▸ rfl, hchild, hwalk⟩
  obtain ⟨namesBefore, namesAfter, hkeys⟩ := List.append_of_mem (mem_keys_of_along hc)
  have hkeysg : (g.nodeAt p).children.keys = namesBefore ++ key :: namesAfter := by
    rw [hb.nodeAt_eq, hkeys]
  have hsplit := hkeeps
  rw [hkeys] at hsplit
  obtain ⟨before, after, rfl, hbefore, hafter⟩ := hsplit.split hcg
  obtain ⟨hnotBefore, hnotAfter⟩ : c ∉ before ∧ c ∉ after := by
    have hmem := (List.nodup_middle.mp hnodup).notMem
    exact ⟨fun h => hmem (List.mem_append_left _ h), fun h => hmem (List.mem_append_right _ h)⟩
  refine ⟨before, after, g, hchildren, ?_, hnodup, hagain, ?_, ?_,
    fun d h => hf.previousSibling_of_next hp hc, fun d h => hf.nextSibling_of_previous hp hc,
    hfirst, ?_⟩
  · rw [siblings_eq hparent hchildren, List.filter_append, List.filter_cons_of_neg (by simp),
      List.filter_eq_self.mpr, List.filter_eq_self.mpr]
    · exact fun d hd => decide_eq_true (ne_of_mem_of_not_mem hd hnotAfter)
    · exact fun d hd => decide_eq_true (ne_of_mem_of_not_mem hd hnotBefore)
  · rw [hg.nextSibling_eq hcg hkeysg]
    exact hafter.child_head?
  · rw [hg.previousSibling_eq hcg hkeysg]
    exact hbefore.child_getLast?
  · obtain ⟨first, others, hcs⟩ := List.exists_cons_of_ne_nil
      (List.append_ne_nil_of_right_ne_nil before (List.cons_ne_nil c after))
    rw [← hb.nodeAt_eq, hcs] at hkeeps
    rw [hcs]
    exact ⟨first, rfl, hg.succession_kept (hb.made hp) hkeeps⟩

/-- The garden, of which only the border has been asked for yet. -/
def borderForest : Forest :=
  (Forest.child ((Forest.mk .garden #[]).allocWrapper (.ofNode ⟨10⟩ none)).2 ⟨0⟩ "border").2

/-- The bed has the same node as the border. Its wrapper is made later and comes first. -/
theorem border_siblings : ∃ g,
    borderForest.children ⟨0⟩ = ([⟨2⟩, ⟨1⟩], g) ∧ borderForest.siblings ⟨1⟩ = ([⟨2⟩], g) ∧
    (borderForest.previousSibling ⟨1⟩).1 = some ⟨2⟩ ∧
    (borderForest.previousSibling ⟨1⟩).2.nextSibling ⟨2⟩ =
      (some ⟨1⟩, (borderForest.previousSibling ⟨1⟩).2) ∧
    g.Succession ⟨2⟩ [⟨2⟩, ⟨1⟩] g := by
  have hf : borderForest.Arises false :=
    ((Forest.Arises.start .garden).wrap ⟨10⟩ none).child (by decide) "border"
  have hparent : (borderForest.wrapper ⟨1⟩).parent = some ⟨0⟩ := rfl
  have hkey : borderForest.keyInParent ⟨1⟩ = some "border" := rfl
  obtain ⟨before, after, g, hchildren, hsiblings, -, -, -, -, -, hprevious, -, first,
    hfirst, hwalk⟩ := siblings_in_line hf hparent hkey
  have hall : before ++ ⟨1⟩ :: after = [⟨2⟩, ⟨1⟩] := (congrArg Prod.fst hchildren).symm
  have hothers : before ++ after = [⟨2⟩] := (congrArg Prod.fst hsiblings).symm
  rw [hall] at hchildren hfirst hwalk
  rw [hothers] at hsiblings
  cases hfirst
  exact ⟨g, hchildren, hsiblings, rfl, hprevious ⟨2⟩ _ rfl, hwalk⟩

end LiveTree
