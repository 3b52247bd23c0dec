import LiveTree.Proofs.Runs.Paths

/-! One run. Every store and every value corresponds to itself, so what holds of two runs of an
evaluation holds of one: with standard operators it comes to an end without suspending, makes the
store later and does nothing else to it, and never fails because a wrapper has been destroyed. -/

namespace LiveTree

/-- The correspondence of everything to itself. -/
def Correspondence.itself : Correspondence where
  stores s t := s = t
  values _ v w := v = w

theorem Value.SameSort.refl (v : Value) : v.SameSort v := by
  cases v with
  | list r => exact .list r r
  | tuple r => exact .tuple r r
  | dict r => exact .dict r r
  | node r => exact .node r r
  | _ => exact .scalar rfl

theorem eq_of_forall₂ {α : Type} {l l' : List α} (h : List.Forall₂ (fun a b => a = b) l l') :
    l = l' := by
  rwa [List.forall₂_eq_eq_eq] at h

theorem Correspondence.Maps.eq {s : Store} {m m' : Entries Value}
    (h : Correspondence.itself.Maps s m m') : m = m' :=
  (Entries.eq_of_keys_of_values h.keys (eq_of_forall₂ h.values).symm).symm

theorem itself_lawful : Correspondence.itself.Lawful where
  later h _ := h
  scalar _ _ := rfl
  sort {_ v _} h := h ▸ .refl v
  same h h' := by rw [Value.node.inj h, Value.node.inj h']
  nodes := by
    rintro s _ r _ rfl ⟨⟩
    exact .same fun _ _ => rfl
  list := by
    rintro s _ a _ rfl ⟨⟩
    exact List.forall₂_same.mpr fun _ _ => rfl
  tuple := by
    rintro s _ a _ rfl ⟨⟩
    exact List.forall₂_same.mpr fun _ _ => rfl
  dict := by
    rintro s _ a _ rfl ⟨⟩
    exact ⟨rfl, List.forall₂_same.mpr fun _ _ => rfl⟩
  newList := by
    rintro s _ l _ rfl hl
    cases eq_of_forall₂ hl
    exact ⟨rfl, rfl⟩
  newTuple := by
    rintro s _ l _ rfl hl
    cases eq_of_forall₂ hl
    exact ⟨rfl, rfl⟩
  newDict := by
    rintro s _ d _ rfl hd
    cases hd.eq
    exact ⟨rfl, rfl⟩
  arguments := by
    rintro s _ r _ rfl ⟨⟩
    have hself : ∀ {s'} (l : List NodeRef), List.Forall₂ (Correspondence.itself.Paired s') l l :=
      fun l => List.forall₂_same.mpr fun _ _ => rfl
    rcases orderedArguments_cases s r with ⟨keys, hkeys, e⟩ | ⟨keys, hnone, hkeys, e⟩ |
      ⟨fault, -, hfault, e⟩ <;> rw [e]
    · exact .done (.refl s) rfl (hself _)
    · exact .done (Store.later_setArgOrder hnone hkeys) rfl (hself _)
    · exact .failed (.refl s) rfl (tame_argumentOrder _ _ hfault)
  segments h h' := by rw [h, h']
  equal h h' h'' := by rw [h, h', h'']
  order _ h h' h'' := by rw [h, h', h'']
  text h h' := by rw [h, h']
  parent := by
    rintro s _ r _ root _ rfl ⟨⟩ ⟨⟩
    refine .of_eq rfl (s.tame_findParent r root) fun found _ => ?_
    cases found with
    | none => exact .none
    | some q => exact .some rfl

variable {α : Type} {s t : Store} {c : Context} {r : NodeRef}

/-- How a computation ends that only makes the store later: with a value, or with a fault of its
own. -/
inductive Outcome.Ends (s : Store) : Outcome α → Prop
  | done {a : α} {t : Store} (h : s.Later t) : Ends s (.done a t)
  | failed {e : Fault} {t : Store} (h : s.Later t) (he : e.Tame) : Ends s (.failed e (.ended t))

/-- With standard operators an evaluation makes the store later and does nothing else to it, also if
it fails, and it does not fail because of a wrapper. -/
theorem evaluate_ends [Host]
    (hstandard : ∀ k op, c.registry.get? k = some op → ∃ o, op = .standard o) (r : NodeRef)
    (s : Store) : (evaluate c r s).Ends s := by
  have hc : Correspondence.itself.Contexts s c c := by
    have hfound : ∀ o, Correspondence.itself.Found s o o := fun o => by
      cases o with
      | none => exact .none
      | some r => exact .some rfl
    refine ⟨rfl, rfl, rfl, ?_, ?_, hstandard⟩
    · cases c.lookup with
      | none => exact .none
      | some l => exact .some ⟨List.forall₂_same.mpr fun e _ => ⟨rfl, hfound e.2⟩, hfound l.root⟩
    · cases c.bindings with
      | none => exact .none
      | some m => exact .some ⟨rfl, List.forall₂_same.mpr fun _ _ => rfl⟩
  have hr : Correspondence.itself.Knows s r := rfl
  have hstep := evaluate_tracks itself_lawful hc rfl hr s s (.refl s) rfl
  generalize evaluate c r s = x at hstep
  cases hstep with
  | done hs _ _ => exact .done hs
  | failed hs _ he => exact .failed hs he

end LiveTree
