import LiveTree.Form.Decode
import LiveTree.Proofs.Form.Copy
import LiveTree.Proofs.Store.Later

/-! What building leaves alone. Copies and what is rebuilt from a serialized form are made by adding
cells, whether that succeeds or not, and the node that is found in the end is one that was added. No
argument order comes to be remembered on the way. -/

namespace LiveTree

open Store

variable {α β : Type} {s t : Store} {I : Store → Prop}

/-- Whether something of stores stays when a cell is added. -/
structure Store.AllAdditive (I : Store → Prop) : Prop extends Store.Additive I where
  tuple : ∀ t l, I t → I (t.allocTuple l).2

/-- Whether a store has all cells of another, and remembers the same argument orders. -/
structure Store.Adds (s t : Store) : Prop where
  cells : s.Extends t
  order : ∀ r, t.argOrder r = s.argOrder r

theorem Store.Adds.refl (s : Store) : s.Adds s := ⟨.refl, fun _ => rfl⟩

theorem allAdditive_adds (s : Store) : Store.AllAdditive s.Adds where
  list _ l h := ⟨h.cells.trans (extends_allocList l), h.order⟩
  tuple _ l h := ⟨h.cells.trans (extends_allocTuple l), h.order⟩
  dict _ d h := ⟨h.cells.trans (extends_allocDict d), h.order⟩
  node t n h := ⟨h.cells.trans (extends_allocNode n), fun r =>
    (t.argOrder_allocNode n r).trans (h.order r)⟩

/-- Whether a node stands where the next one was to be added, at some point where something held. -/
def Store.AddedTo (I : Store → Prop) (r : NodeRef) : Prop := ∃ t, I t ∧ r.index = t.nodes.size

theorem Store.AddedTo.not_has {r : NodeRef} (h : Store.AddedTo s.Adds r) : ¬ s.Has (.node r) := by
  obtain ⟨t, ht, hr⟩ := h
  intro hs
  have : r.index < t.nodes.size := ht.cells.has hs
  omega

/-- Whether rebuilding keeps something of the store, with whatever types known. -/
def KeepsStore (I : Store → Prop) (m : RebuildM α) (P : α → Prop) : Prop :=
  ∀ table : TypeTable, Keeps I (m table) fun p => P p.1

namespace KeepsStore

variable {m : RebuildM α} {P : α → Prop} {Q : β → Prop}

theorem pure {a : α} (h : P a) : KeepsStore I (Pure.pure a) P := fun _ => Keeps.pure h

theorem throw (e : Fault) : KeepsStore I (MonadExcept.throw e : RebuildM α) P := fun _ => Keeps.throw e

theorem bind {k : α → RebuildM β} (hm : KeepsStore I m P) (hk : ∀ a, P a → KeepsStore I (k a) Q) :
    KeepsStore I (m >>= k) Q := fun table => (hm table).bind fun p hp => hk p.1 hp p.2

theorem mapM {f : β → RebuildM α} {l : List β} (h : ∀ b ∈ l, KeepsStore I (f b) fun _ => True) :
    KeepsStore I (l.mapM f) fun _ => True := by
  induction l with
  | nil => exact pure trivial
  | cons b rest ih =>
    obtain ⟨hfirst, hrest⟩ := List.forall_mem_cons.mp h
    rw [List.mapM_cons]
    exact hfirst.bind fun _ _ => (ih hrest).bind fun _ _ => pure trivial

theorem update {f : Store → α × Store} (h : ∀ t, I t → I (f t).2 ∧ P (f t).1) :
    KeepsStore I (StoreM.update f : RebuildM α) P := fun _ t ht => h t ht

end KeepsStore

namespace Store.AllAdditive

variable {value : Data NodeRef → RebuildM Value}

theorem keeps_node (h : AllAdditive I) (id : String) (type : NodeRef) (c : Content) :
    KeepsStore I (Make.node id type c : RebuildM NodeRef) (AddedTo I) :=
  .update fun t ht => ⟨h.node t _ ht, t, ht, rfl⟩

theorem keeps_typeNode (h : AllAdditive I) (id : String) :
    KeepsStore I (RebuildM.typeNode id) fun _ => True := by
  intro table
  rw [RebuildM.typeNode, RebuildM.get_bind]
  cases table.get? id with
  | some r => exact Keeps.pure trivial
  | none =>
    have hmade : KeepsStore I (do
        let r ← Make.type id
        modify fun table => table.insert id r
        return r) fun _ => True :=
      (h.keeps_node id Builtin.type {}).bind fun _ _ _ _ ht => ⟨ht, trivial⟩
    exact hmade table

mutual

/-- A node that is rebuilt is the last one that is added. -/
theorem keeps_rebuild (h : AllAdditive I) (hvalue : ∀ d, KeepsStore I (value d) fun _ => True) :
    ∀ p : Payload NodeRef, KeepsStore I (p.rebuild value) (AddedTo I)
  | .mk id typeId v d metadata constraints children => by
    rw [Payload.rebuild]
    exact (h.keeps_typeNode typeId).bind fun type _ => (hvalue v).bind fun v _ =>
      (hvalue d).bind fun d _ => (h.keeps_rebuildEntries hvalue metadata).bind fun _ _ =>
        (h.keeps_rebuildEntries hvalue constraints).bind fun _ _ =>
          (h.keeps_rebuildEntries hvalue children).bind fun _ _ => h.keeps_node id type _

theorem keeps_rebuildEntries (h : AllAdditive I)
    (hvalue : ∀ d, KeepsStore I (value d) fun _ => True) :
    ∀ l : List (String × Payload NodeRef),
      KeepsStore I (Payload.rebuildEntries value l) fun _ => True
  | [] => .pure trivial
  | (k, p) :: rest => by
    rw [Payload.rebuildEntries]
    exact (h.keeps_rebuild hvalue p).bind fun _ _ => (h.keeps_rebuildEntries hvalue rest).bind
      fun _ _ => .pure trivial

end

theorem keeps_orInvalid (d : Data NodeRef) :
    KeepsStore I (Payload.orInvalid d) fun _ => True := by
  rw [Payload.orInvalid]
  cases Payload.ofData d with
  | ok p => exact .pure trivial
  | error issues => exact .throw _

theorem keeps_keepTo (h : AllAdditive I) (n : ℕ) (d : Data NodeRef) :
    KeepsStore I (Data.rebuildTo.keepTo n d) fun _ => True := by
  induction n generalizing d with
  | zero => exact .throw _
  | succ n ih =>
    cases d with
    | list items =>
      refine (KeepsStore.mapM fun d _ => ih d).bind fun vs _ => ?_
      exact .update fun t ht => ⟨h.list t vs ht, trivial⟩
    | tuple items =>
      refine (KeepsStore.mapM fun d _ => ih d).bind fun vs _ => ?_
      exact .update fun t ht => ⟨h.tuple t vs ht, trivial⟩
    | dict es =>
      refine (KeepsStore.mapM fun e _ => (ih e.2).bind fun _ _ => .pure trivial).bind fun vs _ => ?_
      exact .update fun t ht => ⟨h.dict t _ ht, trivial⟩
    | _ => exact .pure trivial

theorem keeps_rebuildTo (h : AllAdditive I) (n : ℕ) (d : Data NodeRef) :
    KeepsStore I (d.rebuildTo n) fun _ => True := by
  induction n generalizing d with
  | zero => exact .throw _
  | succ n ih =>
    cases d with
    | list items =>
      refine (KeepsStore.mapM fun d _ => ih d).bind fun vs _ => ?_
      exact .update fun t ht => ⟨h.list t vs ht, trivial⟩
    | tuple items =>
      refine (KeepsStore.mapM fun d _ => h.keeps_keepTo n d).bind fun vs _ => ?_
      exact .update fun t ht => ⟨h.tuple t vs ht, trivial⟩
    | dict es =>
      rw [Data.rebuildTo]
      split
      · exact (keeps_orInvalid _).bind fun p _ => (h.keeps_rebuild ih p).bind fun _ _ =>
          .pure trivial
      · refine (KeepsStore.mapM fun e _ => (ih e.2).bind fun _ _ => .pure trivial).bind
          fun vs _ => ?_
        exact .update fun t ht => ⟨h.dict t _ ht, trivial⟩
    | _ => exact .pure trivial

end Store.AllAdditive

/-- Rebuilding a node from its form adds cells, and the node is one of them. -/
theorem deserialize_adds {d : Data NodeRef} {types : TypeTable} {r : NodeRef}
    (h : deserialize d types s = .ok r t) : s.Adds t ∧ ¬ s.Has (.node r) := by
  have hnode : KeepsStore s.Adds d.rebuildNode (AddedTo s.Adds) :=
    (AllAdditive.keeps_orInvalid d).bind fun p _ => (allAdditive_adds s).keeps_rebuild
      (fun d => (allAdditive_adds s).keeps_rebuildTo _ d) p
  have hkeeps : Keeps s.Adds (deserialize d types) (AddedTo s.Adds) :=
    (hnode types).bind fun _ hp => .pure hp
  exact (hkeeps.ok (.refl s) h).imp_right AddedTo.not_has

/-- So does copying. -/
theorem copyNode_adds {r c : NodeRef} (h : copyNode r s = .ok c t) : s.Adds t :=
  ((allAdditive_adds s).toAdditive.keeps_copyNode r |>.ok (.refl s) h).1

end LiveTree
