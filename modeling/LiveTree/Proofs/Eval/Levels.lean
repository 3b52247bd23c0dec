import LiveTree.Proofs.Tree.References

/-! How deep an evaluation starts. With standard operators, an evaluation that starts less deep
comes to the same value or the same fault as long as the deeper one does not run out of levels, and
leaves the same store. No operator hides that an evaluation of an argument has run out of levels:
whatever is put in the place of such evaluations, the operator comes to the same, unless it runs
out of levels itself. -/

namespace LiveTree

variable {α : Type} {s t : Store} {c : Context} {r : NodeRef} {d : Int}

/-- How deep an evaluation is makes no difference to what it can see. -/
theorem Context.agrees_withDepth (h : ∀ k op, c.registry.get? k = some op → ∃ o, op = .standard o)
    (nodes : Array Node) (d : Int) : c.Agrees nodes { c with depth := d } where
  current := rfl
  root := rfl
  registry := rfl
  bindings := rfl
  parent _ _ _ := rfl
  standard := h

theorem Outcome.finish_mapFault_of_tooDeep {x : Outcome α} {rest : Aftermath}
    (h : x = .failed .tooDeep rest) :
    ((x.mapFault Fault.orTooDeep).finish).1 = .error .tooDeep := by
  rw [h]
  rfl

/-- An evaluation that starts less deep has no fewer levels left. -/
theorem levels_le {a b : Int} (h : b ≤ a) : (maxDepth - a).toNat ≤ (maxDepth - b).toNat := by
  omega

/-- With standard operators, starting less deep changes neither the value nor the fault that an
evaluation comes to, nor what it leaves, unless the deeper one runs out of levels; and what an
operator comes to without running out of levels does not depend on any evaluation that has. -/
theorem evaluate_less_deep [Host]
    (hstandard : ∀ k op, c.registry.get? k = some op → ∃ o, op = .standard o) :
    (∀ r s d, d ≤ c.depth → ∀ result t, (evaluate c r).run s = (result, t) →
      result ≠ .error .tooDeep → (evaluate { c with depth := d } r).run s = (result, t)) ∧
    ∀ (op : StandardOp) (args : List NodeRef) (nodes : Array Node) (eval eval' : Evaluator),
      eval.Follows nodes eval' → Follows nodes (op.apply eval c args) (op.apply eval' c args) := by
  refine ⟨fun r s d hd result t hrun hne => ?_, fun op args nodes eval eval' heval => ?_⟩
  · have hfollows := evaluateWithin_follows (levels_le hd) c { c with depth := d } r
      (c.agrees_withDepth hstandard s.nodes d) s rfl
    rcases hfollows with ⟨rest, htoo⟩ | ⟨hsame, -⟩
    · refine absurd ?_ hne
      rw [← Outcome.finish_mapFault_of_tooDeep htoo]
      exact (congrArg Prod.fst hrun).symm
    · rw [← hrun]
      exact congrArg (fun x => (Outcome.mapFault Fault.orTooDeep x).finish) hsame
  · exact op.apply_follows heval (c.agrees_withDepth hstandard nodes c.depth) args

/-- A sum that has just enough levels left is the same sum at the start. -/
theorem tally_less_deep :
    ∃ t, (@evaluate Host.none
        { tally.forest.contextAt ⟨0⟩ ⟨1⟩ .standard with depth := 998 } ⟨10⟩).run
          tally.forest.store = (.ok (.int 3), t) ∧
      (@evaluate Host.none
        { tally.forest.contextAt ⟨0⟩ ⟨1⟩ .standard with depth := 0 } ⟨10⟩).run
          tally.forest.store = (.ok (.int 3), t) := by
  refine ⟨_, rfl, ?_⟩
  exact (@evaluate_less_deep { tally.forest.contextAt ⟨0⟩ ⟨1⟩ .standard with depth := 998 }
    Host.none Registry.get?_standard).1 ⟨10⟩ tally.forest.store 0 (by decide) _ _ rfl
    (fun h => nomatch h)

end LiveTree
