import LiveTree.Proofs.Eval.Holder
import LiveTree.Proofs.Eval.Paths
import LiveTree.Proofs.Tree.Wrappers
import LiveTree.Tree.Read

/-! Wrappers that stand under a root, and what evaluations at them run in. Going up from such a
wrapper ends at the root, and the parents met on the way are those that a search from the root
finds, so it makes no difference at which wrapper of a tree parents are asked for. -/

namespace LiveTree

/-- The standard registry has standard operators only. -/
theorem Registry.get?_standard (k : String) (op : Operator)
    (h : Registry.standard.get? k = some op) : ∃ o, op = .standard o := by
  rcases Entries.mem_values_insertAll (Entries.mem_values_of_get? h) with h | h
  · cases h
  · rw [List.map_map] at h
    obtain ⟨p, -, rfl⟩ := List.mem_map.mp h
    exact ⟨p.2, rfl⟩

namespace Forest

/-- Whether a wrapper stands under another along some keys: each wrapper on the way is the parent
of the next, and its node still holds the next one's under the key. -/
inductive Below (f : Forest) (r : WrapperRef) : Path → WrapperRef → Prop
  | root : Below f r [] r
  | child {path : Path} {key : String} {p w : WrapperRef} (hp : Below f r path p)
      (hparent : (f.wrapper w).parent = some p)
      (hnode : (f.nodeAt p).children.get? key = some (f.wrapper w).node) :
      Below f r (path ++ [key]) w

/-- Whether a wrapper is the root of a tree without cycles in which no node is held by two others,
with the only registry of the tree and standard operators in it. -/
structure StandardTree (f : Forest) (r : WrapperRef) (g : Registry) : Prop where
  parent : (f.wrapper r).parent = none
  acyclic : Acyclic f.store.held (f.wrapper r).node
  singly : f.store.SinglyHeld (f.wrapper r).node
  registry : (f.wrapper r).registry = some g
  only : ∀ path w, f.Below r path w → (f.wrapper w).registry = none ∨ w = r
  standard : ∀ k op, g.get? k = some op → ∃ o, op = .standard o

variable {f : Forest} {r w : WrapperRef} {g : Registry} {path : Path} {n : ℕ}

namespace Below

theorem held {p : WrapperRef} {key : String}
    (hnode : (f.nodeAt p).children.get? key = some (f.wrapper w).node) :
    (f.wrapper w).node ∈ f.store.held (f.wrapper p).node :=
  Store.mem_held.mpr ⟨.children, Entries.mem_values_of_get? hnode⟩

theorem reaches (h : f.Below r path w) :
    Reaches f.store.held (f.wrapper r).node (f.wrapper w).node := by
  induction h with
  | root => exact .refl _
  | child _ _ hnode ih => exact ih.below (held hnode)

/-- Every ancestor stands under the root as well. -/
theorem ancestor (hr : (f.wrapper r).parent = none) (h : f.Below r path w) :
    ∀ a ∈ w :: f.ancestorsTo n w, ∃ path', f.Below r path' a := by
  induction n generalizing path w with
  | zero =>
    intro a ha
    rw [List.mem_singleton.mp ha]
    exact ⟨path, h⟩
  | succ n ih =>
    refine List.forall_mem_cons.mpr ⟨⟨path, h⟩, ?_⟩
    rw [ancestorsTo]
    cases h with
    | root =>
      rw [hr]
      exact fun a ha => nomatch ha
    | child hp hparent hnode =>
      rw [hparent]
      exact ih hp

/-- The topmost ancestor is the root. -/
theorem ancestors_getLast (ho : f.Ordered) (ht : f.StandardTree r g) (h : f.Below r path w)
    (hn : w.index ≤ n) : (f.ancestorsTo n w).getLast?.getD w = r := by
  induction h generalizing n with
  | root =>
    cases n with
    | zero => rfl
    | succ n => rw [ancestorsTo, ht.parent]; rfl
  | child hp hparent _ ih =>
    have hlt := ho.parent_lt _ _ hparent
    obtain ⟨n, rfl⟩ : ∃ m, n = m + 1 := ⟨n - 1, by omega⟩
    rw [ancestorsTo, hparent, List.getLast?_cons]
    exact ih (by omega)

theorem root_eq (ho : f.Ordered) (ht : f.StandardTree r g) (h : f.Below r path w) :
    f.root w = r := h.ancestors_getLast ho ht (Nat.le_refl _)

theorem findSome_registry (ho : f.Ordered) (ht : f.StandardTree r g) (h : f.Below r path w)
    (hn : w.index ≤ n) :
    (w :: f.ancestorsTo n w).findSome? (fun a => (f.wrapper a).registry) = some g := by
  induction h generalizing n with
  | root => rw [List.findSome?_cons, ht.registry]
  | child hp hparent hnode ih =>
    have hlt := ho.parent_lt _ _ hparent
    obtain ⟨n, rfl⟩ : ∃ m, n = m + 1 := ⟨n - 1, by omega⟩
    rcases ht.only _ _ (.child hp hparent hnode) with hnone | rfl
    · rw [List.findSome?_cons, hnone, ancestorsTo, hparent]
      exact ih (by omega)
    · rw [ht.parent] at hparent
      cases hparent

/-- The registry seen from a wrapper is that of the root. -/
theorem registry_eq (ho : f.Ordered) (ht : f.StandardTree r g) (h : f.Below r path w) :
    f.registry w = some g := h.findSome_registry ho ht (Nat.le_refl _)

/-- What a wrapper says of parents is what a search from the root finds, in a tree without cycles in
which no node is held by two others. -/
theorem lookup_eq (hr : (f.wrapper r).parent = none)
    (hacyclic : Acyclic f.store.held (f.wrapper r).node)
    (hsingly : f.store.SinglyHeld (f.wrapper r).node) (h : f.Below r path w) {s : Store}
    (hs : s.nodes = f.store.nodes) (q : NodeRef) :
    (f.lookup w (f.wrapper r).node).parent s q = s.findParent q (f.wrapper r).node := by
  rw [Lookup.parent]
  split
  · rename_i q' p hfound
    have hq : q' = q := by simpa using List.find?_some hfound
    obtain ⟨a, ha, hpair⟩ := List.mem_map.mp (List.mem_of_find?_eq_some hfound)
    obtain ⟨rfl, rfl⟩ := Prod.mk.inj hpair
    -- what is known is the parent of some ancestor, which stands under the root as well
    obtain ⟨path', hbelow⟩ := h.ancestor hr a ha
    rw [← hq]
    cases hbelow with
    | root => rw [hr, Store.findParent, if_pos rfl]; rfl
    | child hp hparent hnode =>
      have hheld := Store.held_eq_of_nodes hs
      have hsearch := Store.findParent_eq_holder (s := s) (hheld ▸ hacyclic)
        (by rw [Store.SinglyHeld, hheld]; exact hsingly) (hheld ▸ hp.reaches) (hheld ▸ held hnode)
      rw [hparent, hsearch]
      rfl
  · rfl

end Below

/-- Whether an evaluation starts in a tree, at any node: with the root and the registry of the
tree, without loop variables, and with parents as some wrapper of the tree has them or as they are
found from the root. -/
structure Starts (f : Forest) (r : WrapperRef) (g : Registry) (c : Context) : Prop where
  root : c.root = (f.wrapper r).node
  registry : c.registry = g
  bindings : c.bindings = none
  lookup : c.lookup = none ∨
    ∃ path w, f.Below r path w ∧ c.lookup = some (f.lookup w (f.wrapper r).node)

namespace Starts

variable {c c' : Context}

theorem parent_eq (h : f.Starts r g c) (ht : f.StandardTree r g) {s : Store}
    (hs : s.nodes = f.store.nodes) (q : NodeRef) :
    c.parent s q = s.findParent q (f.wrapper r).node := by
  rw [Context.parent]
  rcases h.lookup with hnone | ⟨path, w, hw, hsome⟩
  · rw [hnone, h.root]
  · rw [hsome]
    exact hw.lookup_eq ht.parent ht.acyclic ht.singly hs q

/-- Evaluations that start in one tree, for the same node, are in contexts that agree. -/
theorem agrees (ht : f.StandardTree r g) (h : f.Starts r g c) (h' : f.Starts r g c')
    (hcurrent : c'.current = c.current) : c.Agrees f.store.nodes c' where
  current := hcurrent
  root := by rw [h.root, h'.root]
  registry := by rw [h.registry, h'.registry]
  bindings := by rw [h.bindings, h'.bindings]
  parent s hs q := by rw [h.parent_eq ht hs, h'.parent_eq ht hs]
  standard := h.registry ▸ ht.standard

theorem deeper (h : f.Starts r g c) : f.Starts r g c.deeper := { h with }

theorem focus (h : f.Starts r g c) (q : NodeRef) : f.Starts r g (c.focus q) := { h with }

end Starts

/-- The context for an evaluation at a wrapper. -/
def contextAt (f : Forest) (r w : WrapperRef) (g : Registry) : Context where
  current := (f.wrapper w).node
  root := (f.wrapper r).node
  registry := g
  bindings := none
  depth := 0
  lookup := some (f.lookup w (f.wrapper r).node)

theorem Below.starts (h : f.Below r path w) : f.Starts r g (f.contextAt r w g) where
  root := rfl
  registry := rfl
  bindings := rfl
  lookup := .inr ⟨path, w, h, rfl⟩

end Forest

namespace TreeM

variable {σ : Type} {x : World σ} {r w : WrapperRef} {g : Registry} {path : Path}

/-- A wrapper of a tree evaluates with the root and the registry of the tree. -/
theorem context_eq (ho : x.forest.Ordered) (ht : x.forest.StandardTree r g)
    (h : x.forest.Below r path w) : context w w x = .ok (x.forest.contextAt r w g) x := by
  rw [context, forest_bind, h.registry_eq ho ht, h.root_eq ho ht]
  rfl

end TreeM

end LiveTree
