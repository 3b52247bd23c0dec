import Mathlib.Data.List.Perm.Lattice
import LiveTree.Proofs.Eval.Holder
import LiveTree.Proofs.Tree.Navigation

/-! The paths of a subtree in the orders in which it is visited: parents before children, children
before parents, and level by level. In a tree without cycles each order has every path that leads
anywhere once, and the last is the first, sorted by length without changing places otherwise. -/

namespace LiveTree

section

variable {α : Type*} {l : List α} {f : α → ℕ} {n : ℕ}

/-- In a list that is sorted by numbers, the smaller ones come first. -/
theorem filter_lt_succ_of_sorted (hl : l.Pairwise (f · ≤ f ·)) :
    l.filter (f · < n + 1) = l.filter (f · < n) ++ l.filter (f · = n) := by
  induction l with
  | nil => rfl
  | cons a l ih =>
    obtain ⟨ha, hl⟩ := List.pairwise_cons.mp hl
    have ih := ih hl
    by_cases hlt : f a < n
    · simp only [List.filter_cons, hlt, Nat.lt_succ_of_lt hlt, Nat.ne_of_lt hlt, decide_true,
        decide_false, if_true, Bool.false_eq_true, if_false, ih, List.cons_append]
    -- nothing smaller comes after
    have hnone : l.filter (f · < n) = [] := by
      refine List.filter_eq_nil_iff.mpr fun b hb => ?_
      have := ha b hb
      simp only [decide_eq_true_eq]
      omega
    rw [hnone] at ih
    by_cases heq : f a = n
    · simp only [List.filter_cons, heq, Nat.lt_irrefl, Nat.lt_succ_self, decide_true, decide_false,
        if_true, Bool.false_eq_true, if_false, hnone, ih, List.nil_append]
    · have hgt : ¬ f a < n + 1 := by omega
      simp only [List.filter_cons, hlt, heq, hgt, decide_false, Bool.false_eq_true, if_false, hnone,
        ih]

theorem filter_lt_eq_flatMap_of_sorted (hl : l.Pairwise (f · ≤ f ·)) (n : ℕ) :
    l.filter (f · < n) = (List.range n).flatMap fun k => l.filter (f · = k) := by
  induction n with
  | zero => simp
  | succ n ih => rw [filter_lt_succ_of_sorted hl, List.range_succ, List.flatMap_append, ih, List.flatMap_singleton]

/-- Sorting by numbers keeps the order of those with the same number. -/
theorem filter_mergeSort (l : List α) (f : α → ℕ) (k : ℕ) :
    (l.mergeSort fun a b => decide (f a ≤ f b)).filter (f · = k) = l.filter (f · = k) := by
  have hsub : (l.filter (f · = k)).Sublist (l.mergeSort fun a b => decide (f a ≤ f b)) := by
    refine List.sublist_mergeSort (by grind) (by grind) ?_ List.filter_sublist
    refine List.pairwise_of_forall_mem_list fun a ha b hb => ?_
    simp only [List.mem_filter, decide_eq_true_eq] at ha hb ⊢
    omega
  have hperm := (List.mergeSort_perm l fun a b => decide (f a ≤ f b)).filter fun a => decide (f a = k)
  have hsub := hsub.filter fun a => decide (f a = k)
  simp only [List.filter_filter, Bool.and_self] at hsub
  exact (hsub.eq_of_length hperm.length_eq.symm).symm

/-- Sorting by numbers puts those with each number together, as they come. -/
theorem mergeSort_eq_flatMap (hl : ∀ a ∈ l, f a < n) :
    (l.mergeSort fun a b => decide (f a ≤ f b)) =
      (List.range n).flatMap fun k => l.filter (f · = k) := by
  have hsorted : (l.mergeSort fun a b => decide (f a ≤ f b)).Pairwise (f · ≤ f ·) :=
    (List.pairwise_mergeSort (by grind) (by grind) l).imp of_decide_eq_true
  have hall : (l.mergeSort fun a b => decide (f a ≤ f b)).filter (f · < n) =
      l.mergeSort fun a b => decide (f a ≤ f b) :=
    List.filter_eq_self.mpr fun a ha => decide_eq_true (hl a (List.mem_mergeSort.mp ha))
  rw [← hall, filter_lt_eq_flatMap_of_sorted hsorted]
  exact List.flatMap_congr fun k _ => filter_mergeSort l f k

end

namespace Store

variable {s t : Store} {r q : NodeRef} {n m : ℕ} {p : Path} {key : String}

/-- The children of a node. -/
def offspring (s : Store) (r : NodeRef) : List NodeRef := (s.node r).children.values

theorem mem_offspring {e : String × NodeRef} (he : e ∈ (s.node r).children.toList) :
    e.2 ∈ s.offspring r := List.mem_map_of_mem he

/-- A descent along children ends where one along all entries does. -/
theorem endsWithin_offspring (h : EndsWithin s.held n r) : EndsWithin s.offspring n r := by
  induction n generalizing r with
  | zero => exact h.elim
  | succ n ih => exact fun q hq => ih (h q (mem_held.mpr ⟨.children, hq⟩))

theorem endsWithin_offspring_nodes (h : Acyclic s.offspring r) :
    EndsWithin s.offspring (s.nodes.size + 1) r := by
  refine endsWithin_next h fun q hq => ?_
  by_contra hnot
  refine hq ?_
  rw [offspring, s.node_of_not_has hnot]
  rfl

/-! ### Following paths -/

theorem follow_append (s : Store) (r : NodeRef) (p q : Path) :
    s.follow r (p ++ q) = (s.follow r p).bind (s.follow · q) := by
  induction p generalizing r with
  | nil => rfl
  | cons key rest ih =>
    rw [List.cons_append, follow, follow]
    cases (s.node r).children.get? key with
    | none => rfl
    | some c => exact ih c

theorem follow_child {e : String × NodeRef} (he : e ∈ (s.node r).children.toList) :
    s.follow r (e.1 :: p) = s.follow e.2 p := by
  rw [follow, Entries.get?_eq_some_iff.mpr he]
  rfl

/-- What follows a path that leads somewhere is a child. -/
theorem exists_child_of_follow (h : (s.follow r (key :: p)).isSome) :
    ∃ e ∈ (s.node r).children.toList, e.1 = key ∧ (s.follow e.2 p).isSome := by
  rw [follow] at h
  cases hq : (s.node r).children.get? key with
  | none =>
    rw [hq] at h
    cases h
  | some q =>
    rw [hq] at h
    exact ⟨(key, q), Entries.get?_eq_some_iff.mp hq, rfl, h⟩

/-! ### Parents before children -/

/-- The paths that lead anywhere from a node, to a given depth, parents before children. -/
def pathsTo (s : Store) : ℕ → NodeRef → List Path
  | 0, _ => []
  | n + 1, r => [] :: (s.node r).children.toList.flatMap fun e => (pathsTo s n e.2).map (e.1 :: ·)

theorem mem_pathsTo (hn : EndsWithin s.offspring n r) :
    p ∈ s.pathsTo n r ↔ (s.follow r p).isSome := by
  induction n generalizing r p with
  | zero => exact hn.elim
  | succ n ih =>
    cases p with
    | nil => simp [pathsTo, follow]
    | cons key rest =>
      simp only [pathsTo, List.mem_cons, reduceCtorEq, false_or, List.mem_flatMap, List.mem_map,
        List.cons.injEq]
      constructor
      · rintro ⟨e, he, _, hrest, rfl, rfl⟩
        rw [follow_child he]
        exact (ih (hn e.2 (mem_offspring he))).mp hrest
      · intro hsome
        obtain ⟨e, he, rfl, hrest⟩ := exists_child_of_follow hsome
        exact ⟨e, he, rest, (ih (hn e.2 (mem_offspring he))).mpr hrest, rfl, rfl⟩

/-- What is below different keys has no path in common. -/
theorem nodup_flatMap_children {l : NodeRef → List Path}
    (hl : ∀ e ∈ (s.node r).children.toList, (l e.2).Nodup) :
    ((s.node r).children.toList.flatMap fun e => (l e.2).map (e.1 :: ·)).Nodup := by
  refine List.nodup_flatMap.mpr ⟨fun e he => (hl e he).map List.cons_injective, ?_⟩
  refine (List.pairwise_map.mp (s.node r).children.nodup).imp fun {a b} hne => ?_
  refine List.disjoint_left.mpr ?_
  rintro _ ha hb
  obtain ⟨_, -, rfl⟩ := List.mem_map.mp ha
  obtain ⟨_, -, he⟩ := List.mem_map.mp hb
  exact hne (List.cons.inj he).1.symm

theorem nodup_pathsTo (s : Store) (n : ℕ) (r : NodeRef) : (s.pathsTo n r).Nodup := by
  induction n generalizing r with
  | zero => exact List.nodup_nil
  | succ n ih =>
    refine List.nodup_cons.mpr ⟨?_, nodup_flatMap_children fun e _ => ih e.2⟩
    simp

/-- A greater depth than that of the tree finds no more. -/
theorem pathsTo_of_le (hn : EndsWithin s.offspring n r) (hm : n ≤ m) :
    s.pathsTo m r = s.pathsTo n r := by
  induction n generalizing m r with
  | zero => exact hn.elim
  | succ n ih =>
    obtain ⟨m, rfl⟩ : ∃ k, m = k + 1 := ⟨m - 1, by omega⟩
    rw [pathsTo, pathsTo, List.flatMap_congr]
    intro e he
    rw [ih (hn e.2 (mem_offspring he)) (Nat.le_of_succ_le_succ hm)]

/-! ### Children before parents -/

/-- The paths that lead anywhere from a node, to a given depth, children before parents. -/
def ascendingTo (s : Store) : ℕ → NodeRef → List Path
  | 0, _ => []
  | n + 1, r =>
    ((s.node r).children.toList.flatMap fun e => (ascendingTo s n e.2).map (e.1 :: ·)) ++ [[]]

theorem ascendingTo_perm (s : Store) (n : ℕ) (r : NodeRef) :
    (s.ascendingTo n r).Perm (s.pathsTo n r) := by
  induction n generalizing r with
  | zero => exact .refl _
  | succ n ih =>
    refine (List.perm_append_singleton _ _).trans (.cons _ ?_)
    exact List.Perm.flatMap_left _ fun e _ => (ih e.2).map _

theorem ascendingTo_of_le (hn : EndsWithin s.offspring n r) (hm : n ≤ m) :
    s.ascendingTo m r = s.ascendingTo n r := by
  induction n generalizing m r with
  | zero => exact hn.elim
  | succ n ih =>
    obtain ⟨m, rfl⟩ : ∃ k, m = k + 1 := ⟨m - 1, by omega⟩
    rw [ascendingTo, ascendingTo, List.flatMap_congr]
    intro e he
    rw [ih (hn e.2 (mem_offspring he)) (Nat.le_of_succ_le_succ hm)]

/-! ### Level by level -/

/-- The paths of one length that lead anywhere from a node. -/
def levelOf (s : Store) : ℕ → NodeRef → List Path
  | 0, _ => [[]]
  | k + 1, r => (s.node r).children.toList.flatMap fun e => (levelOf s k e.2).map (e.1 :: ·)

/-- The keys under which a path goes on. -/
def keysAt (s : Store) (r : NodeRef) (p : Path) : List String :=
  match s.follow r p with
  | none => []
  | some q => (s.node q).children.keys

/-- The paths of a length are found among all, in their order. -/
theorem filter_pathsTo (hn : EndsWithin s.offspring n r) (k : ℕ) :
    (s.pathsTo n r).filter (·.length = k) = s.levelOf k r := by
  induction n generalizing r k with
  | zero => exact hn.elim
  | succ n ih =>
    cases k with
    | zero =>
      rw [pathsTo, levelOf, List.filter_cons_of_pos (by simp), List.filter_flatMap]
      simp [List.filter_map]
    | succ k =>
      rw [pathsTo, levelOf, List.filter_cons_of_neg (by simp), List.filter_flatMap]
      refine List.flatMap_congr fun e he => ?_
      rw [List.filter_map, ← ih (hn e.2 (mem_offspring he))]
      simp [Function.comp_def]

/-- Each level goes on from the one before. -/
theorem levelOf_succ (s : Store) (k : ℕ) (r : NodeRef) :
    s.levelOf (k + 1) r = (s.levelOf k r).flatMap fun p => (s.keysAt r p).map fun key => p ++ [key] := by
  induction k generalizing r with
  | zero =>
    have hkeys : s.keysAt r [] = (s.node r).children.toList.map Prod.fst := rfl
    rw [levelOf, levelOf, List.flatMap_singleton, hkeys, List.map_map]
    exact List.map_eq_flatMap.symm
  | succ k ih =>
    rw [levelOf]
    conv_rhs => rw [levelOf, List.flatMap_assoc]
    refine List.flatMap_congr fun e he => ?_
    rw [ih, List.map_flatMap, List.flatMap_map]
    refine List.flatMap_congr fun p _ => ?_
    rw [keysAt, keysAt, follow_child he, List.map_map]
    rfl

theorem levelOf_eq_nil (hn : EndsWithin s.offspring n r) (hm : n ≤ m) : s.levelOf m r = [] := by
  induction n generalizing m r with
  | zero => exact hn.elim
  | succ n ih =>
    obtain ⟨m, rfl⟩ : ∃ k, m = k + 1 := ⟨m - 1, by omega⟩
    refine List.flatMap_eq_nil_iff.mpr fun e he => ?_
    rw [ih (hn e.2 (mem_offspring he)) (Nat.le_of_succ_le_succ hm), List.map_nil]

/-- No path is longer than the tree is deep. -/
theorem length_lt_of_mem_pathsTo (hp : p ∈ s.pathsTo n r) : p.length < n := by
  induction n generalizing r p with
  | zero => cases hp
  | succ n ih =>
    rcases List.mem_cons.mp hp with rfl | hp
    · exact Nat.succ_pos n
    · obtain ⟨e, -, hp⟩ := List.mem_flatMap.mp hp
      obtain ⟨q, hq, rfl⟩ := List.mem_map.mp hp
      exact Nat.succ_lt_succ (ih hq)

theorem levelOf_eq_nil_of_le (h : s.levelOf n r = []) (hm : n ≤ m) : s.levelOf m r = [] := by
  induction hm with
  | refl => exact h
  | step _ ih => rw [levelOf_succ, ih, List.flatMap_nil]

/-! ### The orders of a subtree -/

/-- The paths of a subtree without cycles, parents before children. -/
def descending (s : Store) (r : NodeRef) : List Path := s.pathsTo (s.nodes.size + 1) r

/-- The paths of a subtree without cycles, children before parents. -/
def ascending (s : Store) (r : NodeRef) : List Path := s.ascendingTo (s.nodes.size + 1) r

/-- The paths of a subtree without cycles, the shorter ones first. -/
def byLevel (s : Store) (r : NodeRef) : List Path :=
  (s.descending r).mergeSort fun p q => decide (p.length ≤ q.length)

section

variable (h : Acyclic s.offspring r)

include h

/-- A node comes before the subtrees of its children, which are taken in the order of their keys. -/
theorem descending_eq : s.descending r =
    [] :: (s.node r).children.toList.flatMap fun e => (s.descending e.2).map (e.1 :: ·) := by
  rw [descending, pathsTo, List.flatMap_congr]
  intro e he
  rw [descending, pathsTo_of_le (endsWithin_offspring_nodes h _ (mem_offspring he)) (Nat.le_succ _)]

/-- A node comes after the subtrees of its children, which are taken in the order of their keys. -/
theorem ascending_eq : s.ascending r =
    ((s.node r).children.toList.flatMap fun e => (s.ascending e.2).map (e.1 :: ·)) ++ [[]] := by
  rw [ascending, ascendingTo, List.flatMap_congr]
  intro e he
  rw [ascending, ascendingTo_of_le (endsWithin_offspring_nodes h _ (mem_offspring he))
    (Nat.le_succ _)]

/-- Sorted by length, the paths are the levels one after the other. -/
theorem byLevel_eq (hm : s.nodes.size + 1 ≤ m) :
    s.byLevel r = (List.range m).flatMap (s.levelOf · r) := by
  rw [byLevel, descending,
    mergeSort_eq_flatMap fun p hp => Nat.lt_of_lt_of_le (length_lt_of_mem_pathsTo hp) hm]
  exact List.flatMap_congr fun k _ => filter_pathsTo (endsWithin_offspring_nodes h) k

/-- In each of the orders there is every path that leads anywhere, and none twice. -/
theorem orders_complete {order : List Path}
    (horder : order ∈ [s.descending r, s.ascending r, s.byLevel r]) :
    order.Nodup ∧ ∀ p, p ∈ order ↔ (s.follow r p).isSome := by
  have hperm : order.Perm (s.descending r) := by
    simp only [List.mem_cons, List.not_mem_nil, or_false] at horder
    rcases horder with rfl | rfl | rfl
    exacts [.refl _, s.ascendingTo_perm _ r, List.mergeSort_perm _ _]
  refine ⟨hperm.nodup_iff.mpr (s.nodup_pathsTo _ r), fun p => ?_⟩
  rw [hperm.mem_iff, descending, mem_pathsTo (endsWithin_offspring_nodes h)]

end

end Store

end LiveTree
