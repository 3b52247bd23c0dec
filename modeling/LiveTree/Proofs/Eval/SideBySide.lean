import LiveTree.Proofs.Eval.Arithmetic
import LiveTree.Proofs.Eval.Loops

/-! Arguments side by side. With standard operators an evaluation has one turn, so evaluating
arguments in turns is evaluating one after the other. Only a failure makes a difference: one after
the other the rest is left, while side by side it still has its turns, and the store shows it. What
comes out is the same, the values in order or the fault of the first argument that fails. -/

namespace LiveTree

variable {α β : Type} {s t : Store}

/-- What is put side by side has its turns in order, each from the store that the one before has
left, and comes to what it comes to one after the other. -/
theorem EvalM.abreast_eq {f : α → EvalM β} {l : List α} (h : ∀ a ∈ l, ∀ s, (f a s).Ends s)
    (s : Store) : EvalM.abreast (l.map f) s =
      .ofExcept (l.foldl (fun u a => ((f a).run u).2) s) ((l.mapM f).run s).1 := by
  induction l generalizing s with
  | nil => rfl
  | cons a rest ih =>
    obtain ⟨ha, hrest⟩ := List.forall_mem_cons.mp h
    rw [List.foldl_cons, List.mapM_cons]
    show ((f a s).beside (abreast (rest.map f))).map _ = _
    have hends := ha s
    cases hfirst : f a s with
    | done b t =>
      have hrun : (f a).run s = (.ok b, t) := congrArg Outcome.finish hfirst
      rw [hrun, EvalM.run_bind_of_ok hrun, EvalM.run_bind]
      show ((abreast (rest.map f) t).map fun b' => (b, b')).map _ = _
      rw [ih hrest t]
      cases (rest.mapM f).run t with
      | mk found u => cases found <;> rfl
    | failed e aftermath =>
      rw [hfirst] at hends
      cases hends with
      | @failed _ t _ _ =>
        have hrun : (f a).run s = (.error e, t) := congrArg Outcome.finish hfirst
        rw [hrun, EvalM.run_bind_of_error hrun]
        show Outcome.failed e (abreast (rest.map f) t).aftermath = _
        rw [ih hrest t]
        cases ((rest.mapM f).run t).1 <;> rfl
    | paused u resume =>
      rw [hfirst] at hends
      cases hends

/-- The rounds that go by until the one who waits goes on make no difference. -/
theorem Outcome.finish_late (s : Store) (r : Except Fault α) :
    (Outcome.ofExcept s r).late.late.finish = (r, s) := by
  cases r <;> rfl

theorem EvalM.gather_run {f : α → EvalM β} {l : List α} (h : ∀ a ∈ l, ∀ s, (f a s).Ends s)
    (s : Store) : (EvalM.gather (l.map f)).run s =
      (((l.mapM f).run s).1, l.foldl (fun u a => ((f a).run u).2) s) := by
  have habreast := EvalM.abreast_eq h
  cases l with
  | nil => rfl
  | cons a rest =>
    show ((EvalM.abreast ((a :: rest).map f) s).late.late).finish = _
    rw [habreast s, Outcome.finish_late]

/-- If all succeed, they leave the same store either way. -/
theorem EvalM.foldl_run_of_ok {f : α → EvalM β} {l : List α} {bs : List β}
    (h : (l.mapM f).run s = (.ok bs, t)) : l.foldl (fun u a => ((f a).run u).2) s = t := by
  induction l generalizing s bs with
  | nil =>
    cases h
    rfl
  | cons a rest ih =>
    rw [List.mapM_cons] at h
    rw [List.foldl_cons]
    cases hfirst : (f a).run s with
    | mk found u =>
      cases found with
      | error e =>
        rw [EvalM.run_bind_of_error hfirst] at h
        cases h
      | ok b =>
        rw [EvalM.run_bind_of_ok hfirst] at h
        cases hrest : (rest.mapM f).run u with
        | mk found v =>
          cases found with
          | error e =>
            rw [EvalM.run_bind_of_error hrest] at h
            cases h
          | ok bs =>
            rw [EvalM.run_bind_of_ok hrest] at h
            obtain rfl : v = t := congrArg Prod.snd h
            exact ih hrest

theorem Outcome.Ends.later {x : Outcome α} (h : x.Ends s) : s.Later x.finish.2 := by
  cases h with
  | done hs => exact hs
  | failed hs _ => exact hs

/-- Whatever comes to an end with each argument makes the store later with all of them. -/
theorem EvalM.later_foldl_run {f : α → EvalM β} {l : List α} (h : ∀ a ∈ l, ∀ s, (f a s).Ends s)
    (s : Store) : s.Later (l.foldl (fun u a => ((f a).run u).2) s) := by
  induction l generalizing s with
  | nil => exact .refl s
  | cons a rest ih =>
    obtain ⟨ha, hrest⟩ := List.forall_mem_cons.mp h
    exact (ha s).later.trans (ih hrest _)

/-- Computations one after the other are rounds, the results of which are listed. -/
theorem mapM_gives_rounds [Inhabited α] (f : α → EvalM Value) (l : List α) (s : Store) :
    ∃ results stores, Rounds (fun i => f (l.getD i default)) l.length s results stores
      (results, stores l.length) ((l.mapM f).run s) := by
  induction l generalizing s with
  | nil => exact ⟨[], fun _ => s, .nil _⟩
  | cons a rest ih =>
    rw [List.mapM_cons]
    cases ha : (f a).run s with
    | mk found t =>
      cases found with
      | error e =>
        rw [EvalM.run_bind_of_error ha]
        exact ⟨[], fun _ => s, .stopped ha⟩
      | ok r =>
        rw [EvalM.run_bind_of_ok ha]
        obtain ⟨results, stores, hrest⟩ := ih t
        refine ⟨r :: results, fun i => i.casesOn s stores, .cons ha ?_⟩
        exact hrest.bind (fun rs => pure (r :: rs)) _ fun _ => rfl

/-- With standard operators, evaluating arguments in turns comes to what evaluating them one after
the other comes to: the list of their values, or the fault of the first that fails. The store is the
one that all of them leave, in order; this is the same store if none fails, and in any case it holds
what was there before. -/
theorem gather_evaluates_in_order [Host] {c : Context}
    (hstandard : ∀ k op, c.registry.get? k = some op → ∃ o, op = .standard o)
    (args : List NodeRef) (s : Store) : ∃ results stores,
      Rounds (fun i => evaluate c (args.getD i default)) args.length s results stores
        (results, stores args.length) ((evaluate.all c args).run s) ∧
      (evaluate.gather c args).run s = (((evaluate.all c args).run s).1,
        args.foldl (fun u r => ((evaluate c r).run u).2) s) ∧
      (results.length = args.length →
        (evaluate.gather c args).run s = (evaluate.all c args).run s) ∧
      s.Later ((evaluate.gather c args).run s).2 := by
  have hends : ∀ r ∈ args, ∀ s, (evaluate c r s).Ends s := fun r _ s => evaluate_ends hstandard r s
  have hgather : (evaluate.gather c args).run s = (((evaluate.all c args).run s).1,
      args.foldl (fun u r => ((evaluate c r).run u).2) s) := EvalM.gather_run hends s
  obtain ⟨results, stores, hrounds⟩ := mapM_gives_rounds (evaluate c) args s
  refine ⟨results, stores, hrounds, hgather, fun hlength => ?_, ?_⟩
  · rcases hrounds.ends with ⟨-, hall⟩ | ⟨hlt, -⟩
    · have hall : (evaluate.all c args).run s = (.ok results, stores args.length) := hall
      rw [hgather, hall, EvalM.foldl_run_of_ok hall]
    · exact absurd hlength (Nat.ne_of_lt hlt)
  · rw [hgather]
    exact EvalM.later_foldl_run hends s

/-- A number, a call of an operator that there is not, the negation of the number, and another call
of this sort. -/
def Store.errands : Store :=
  [{ Builtin.node "lit" Builtin.lit .lit with value := .int 1 }, .call "missing" [],
      .call "not" [⟨8⟩], .call "absent" []].foldl (fun s n => (s.allocNode n).2) initial

/-- The first call that fails is the failure of all. Side by side the negation is evaluated
nevertheless, so the order of its argument is remembered. -/
theorem errands_evaluated :
    (∀ k op, Registry.standard.get? k = some op → ∃ o, op = .standard o) ∧
    (Evaluator.all (@evaluate Host.none) (nestedContext 0) [⟨8⟩, ⟨9⟩, ⟨10⟩, ⟨11⟩]).run
      Store.errands = (.error (.unknownOperator "missing"), Store.errands) ∧
    ((Evaluator.gather (@evaluate Host.none) (nestedContext 0) [⟨8⟩, ⟨9⟩, ⟨10⟩, ⟨11⟩]).run
      Store.errands).1 = .error (.unknownOperator "missing") ∧
    ((Evaluator.gather (@evaluate Host.none) (nestedContext 0) [⟨8⟩, ⟨9⟩, ⟨10⟩, ⟨11⟩]).run
      Store.errands).2.argOrder ⟨10⟩ = some ["arg0"] := by
  obtain ⟨-, -, -, hgather, -⟩ := @gather_evaluates_in_order Host.none (nestedContext 0)
    Registry.get?_standard [⟨8⟩, ⟨9⟩, ⟨10⟩, ⟨11⟩] Store.errands
  have hall : (Evaluator.all (@evaluate Host.none) (nestedContext 0) [⟨8⟩, ⟨9⟩, ⟨10⟩, ⟨11⟩]).run
      Store.errands = (.error (.unknownOperator "missing"), Store.errands) := rfl
  have hargs : ([⟨8⟩, ⟨9⟩, ⟨10⟩, ⟨11⟩].foldl (fun s r =>
      ((@evaluate Host.none (nestedContext 0) r).run s).2) Store.errands).argOrder ⟨10⟩ =
        some ["arg0"] := by
    cbv
  refine ⟨Registry.get?_standard, hall, ?_, ?_⟩
  · rw [hgather, hall]
  · rw [hgather]
    exact hargs

end LiveTree
