import LiveTree.Proofs.Eval.Operators

/-! References side by side, and how many levels are left. What a path comes to follows itself in
contexts that agree, and so does every evaluation; two evaluations that do not run out of levels
come to the same, however many each of them had. -/

namespace LiveTree

variable {nodes : Array Node} {eval eval' : Evaluator} {c c' : Context}

/-! ### Paths -/

theorem bindingStep_follows (v : Value) (seg : Segment) :
    Follows nodes (bindingStep v seg) (bindingStep v seg) := by
  cases v with
  | node r =>
    cases seg with
    | name word => exact .bind (.update fun s => s.nodes_field r word) fun _ => .pure _
    | foreign hashable =>
      cases hashable with
      | true => exact .pure _
      | false => exact .fail _
  | dict r => exact .bind (.read _) fun _ => .bind (.ofExcept _) fun _ => .pure _
  | list r | tuple r =>
    refine .bind (.read _) fun items => .bind (.ofExcept _) fun i => ?_
    cases i with
    | some i => exact .pure _
    | none => exact .pure _
  | _ => exact .pure _

theorem followBinding_follows (v : Value) (segs : List Segment) :
    Follows nodes (followBinding v segs) (followBinding v segs) := by
  induction segs generalizing v with
  | nil => exact .pure v
  | cons seg rest ih =>
    refine .bind (bindingStep_follows v seg) fun next => ?_
    cases next with
    | some v => exact ih v
    | none => exact .pure _

theorem parent_follows (hc : c.Agrees nodes c') (r : NodeRef) :
    Follows nodes (EvalM.check (c.parent · r)) (EvalM.check (c'.parent · r)) :=
  .check fun s hs => hc.parent s hs r

section

variable (heval : eval.Follows nodes eval') (hc : c.Agrees nodes c')

include heval hc

theorem settle_follows (current owner : NodeRef) :
    Follows nodes (settle eval c current owner) (settle eval' c' current owner) := by
  refine .bind (.read _) fun n => ?_
  split
  · exact heval _ _ current (hc.focus owner)
  · split
    · exact .pure _
    · exact heval _ _ _ (hc.focus owner)
    · exact .pure _

theorem ownValue_follows (current owner : NodeRef) :
    Follows nodes (ownValue eval c current owner) (ownValue eval' c' current owner) := by
  refine .bind (.read _) fun n => ?_
  split
  · exact .pure _
  · split
    · exact heval _ _ current (hc.focus owner)
    · split
      · exact heval _ _ _ (hc.focus owner)
      · exact .pure _

theorem walk_follows (current : Option NodeRef) (owner : NodeRef) (segs : List Segment) :
    Follows nodes (walk eval c current owner segs) (walk eval' c' current owner segs) := by
  induction segs using Segment.path_induction generalizing current owner with
  | nil =>
    cases current with
    | none => exact .pure _
    | some current => exact settle_follows heval hc current owner
  | cons seg rest ih =>
    cases current with
    | none => exact .pure _
    | some current =>
      have hrest := ih rest (List.suffix_refl rest)
      rw [walk, walk]
      refine .bind (.read _) fun node => ?_
      split
      · exact ownValue_follows heval hc current owner
      · exact hrest _ _
      · exact .pure _
      · split
        · exact .pure _
        · exact .bind (.ofExcept _) fun _ => ih _ (List.suffix_cons _ _) _ _
      · split
        · exact .pure _
        · exact .bind (.ofExcept _) fun _ => ih _ (List.suffix_cons _ _) _ _
      · split
        · exact .pure _
        · exact .bind (.ofExcept _) fun _ => ih _ (List.suffix_cons _ _) _ _
      · exact .bind (parent_follows hc current) fun _ => hrest _ _
      · refine .bind (.ofExcept _) fun child => ?_
        cases child with
        | some child => exact hrest _ _
        | none =>
          refine .bind (.ofExcept _) fun entry => ?_
          cases entry with
          | some entry => exact hrest _ _
          | none => exact .pure _

theorem resolveSegments_follows (segs : List Segment) :
    Follows nodes (resolveSegments eval c segs) (resolveSegments eval' c' segs) := by
  cases segs with
  | nil => exact .pure _
  | cons start rest =>
    rw [resolveSegments, resolveSegments, hc.current, hc.root, hc.bindings]
    split
    · exact walk_follows heval hc _ _ rest
    · split
      · exact walk_follows heval hc _ _ rest
      · split
        · exact .bind (parent_follows hc _) fun _ => walk_follows heval hc _ _ rest
        · have hwalk := walk_follows heval hc (some c.current) c.current (start :: rest)
          cases c.bindings with
          | some bindings =>
            refine .bind (.ofExcept _) fun bound => ?_
            cases bound with
            | some v => exact followBinding_follows v rest
            | none => exact hwalk
          | none => exact hwalk

theorem resolvePath_follows (path : Value) :
    Follows nodes (resolvePath eval c path) (resolvePath eval' c' path) :=
  .bind (.check fun _ _ => rfl) fun segs => resolveSegments_follows heval hc segs

end

theorem orderedArguments_follows (r : NodeRef) :
    Follows nodes (orderedArguments r) (orderedArguments r) := by
  refine .bind (.read _) fun n => .bind (.read _) fun order => ?_
  cases order with
  | some keys => exact .pure _
  | none => exact .bind (.ofExcept _) fun _ => .bind (.modify fun _ => rfl) fun _ => .pure _

/-! ### Levels -/

section

variable [Host]

/-- An evaluation follows one that has no more levels left. -/
theorem evaluateWithin_follows {n m : Nat} (hn : n ≤ m) :
    Evaluator.Follows nodes (evaluateWithin n) (evaluateWithin m) := by
  induction n generalizing m with
  | zero => exact fun _ _ _ _ => .tooDeep
  | succ n ih =>
    obtain ⟨m, rfl⟩ : ∃ k, m = k + 1 := ⟨m - 1, by omega⟩
    have hlevel := ih (Nat.le_of_succ_le_succ hn)
    intro c c' r hc
    rw [evaluateWithin, evaluateWithin]
    refine .bind (.read _) fun node => ?_
    split
    · exact resolvePath_follows hlevel hc.deeper _
    · rw [hc.registry]
      cases hop : c.registry.get? node.id with
      | none => exact .fail _
      | some op =>
        obtain ⟨op, rfl⟩ := hc.standard _ _ hop
        exact .bind (orderedArguments_follows r) fun args => op.apply_follows hlevel hc.deeper args
    · exact .pure _

/-- Two evaluations in contexts that agree come to the same, unless one runs out of levels. -/
theorem evaluateWithin_eq {s : Store} {n m : Nat} (hc : c.Agrees s.nodes c') (r : NodeRef)
    (hn : ∀ rest, evaluateWithin n c r s ≠ .failed .tooDeep rest)
    (hm : ∀ rest, evaluateWithin m c' r s ≠ .failed .tooDeep rest) :
    evaluateWithin n c r s = evaluateWithin m c' r s := by
  rcases Nat.le_total n m with h | h
  · rcases evaluateWithin_follows h c c' r hc s rfl with ⟨rest, e⟩ | ⟨e, -⟩
    · exact absurd e (hn rest)
    · exact e.symm
  · rcases evaluateWithin_follows h c' c r hc.symm s rfl with ⟨rest, e⟩ | ⟨e, -⟩
    · exact absurd e (hm rest)
    · exact e

end

end LiveTree
