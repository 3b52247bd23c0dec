import LiveTree.Proofs.Eval.Holder

/-! The first holder of a node. A node may be held in several places, and many nodes may look
alike; the search for a parent goes by identity, and by the order in which it meets the entries of
the maps: depth first, the children of a node before its metadata before its constraints, and each
entry before what lies below it. In a graph without cycles it gives the holder at the first place
where the node is met. -/

namespace LiveTree.Store

variable {s : Store} {target root r : NodeRef} {n : ℕ}

/-- An entry of a map and the node that holds it there. -/
abbrev Place : Type := NodeRef × NodeRef

mutual

/-- Whether some places are all those below a node, depth first: the children and what lies below
them, then the metadata, then the constraints. -/
inductive DepthFirst (s : Store) : NodeRef → List Place → Prop
  | mk {r : NodeRef} {children metadata constraints : List Place}
      (hchildren : Entered s r (s.node r).children.values children)
      (hmetadata : Entered s r (s.node r).metadata.values metadata)
      (hconstraints : Entered s r (s.node r).constraints.values constraints) :
    DepthFirst s r (children ++ metadata ++ constraints)

/-- Whether some places are those at and below some entries of a holder, each entry before what lies
below it. -/
inductive Entered (s : Store) : NodeRef → List NodeRef → List Place → Prop
  | nil (holder : NodeRef) : Entered s holder [] []
  | cons {holder entry : NodeRef} {rest : List NodeRef} {below after : List Place}
      (hbelow : DepthFirst s entry below) (hafter : Entered s holder rest after) :
    Entered s holder (entry :: rest) ((holder, entry) :: (below ++ after))

end

theorem Entered.append {entries rest : List NodeRef} {l l' : List Place}
    (h : s.Entered r entries l) (h' : s.Entered r rest l') :
    s.Entered r (entries ++ rest) (l ++ l') := by
  induction entries generalizing l with
  | nil =>
    cases h
    exact h'
  | cons entry entries ih =>
    cases h with
    | cons hbelow hafter =>
      rw [List.cons_append, List.cons_append, List.append_assoc]
      exact .cons hbelow (ih hafter)

/-- The search goes through the entries in this order. -/
theorem DepthFirst.entered {l : List Place} (h : s.DepthFirst r l) :
    s.Entered r (s.held r) l := by
  cases h with
  | mk hchildren hmetadata hconstraints => exact (hchildren.append hmetadata).append hconstraints

/-- Where everything below some entries can be listed, so can the entries. -/
theorem exists_entered {entries : List NodeRef} (holder : NodeRef)
    (h : ∀ e ∈ entries, ∃ l, s.DepthFirst e l) : ∃ l, s.Entered holder entries l := by
  induction entries with
  | nil => exact ⟨[], .nil holder⟩
  | cons e rest ih =>
    obtain ⟨⟨below, hbelow⟩, hrest⟩ := List.forall_mem_cons.mp h
    obtain ⟨after, hafter⟩ := ih hrest
    exact ⟨_, .cons hbelow hafter⟩

/-- Where descents end, there is a list of all places below. -/
theorem exists_depthFirst (h : EndsWithin s.held n r) : ∃ l, s.DepthFirst r l := by
  induction n generalizing r with
  | zero => exact h.elim
  | succ n ih =>
    have hrole : ∀ role, ∃ l, s.Entered r ((s.node r).entries role).values l := fun role =>
      exists_entered r fun e he => ih (h e (mem_held.mpr ⟨role, he⟩))
    obtain ⟨_, hchildren⟩ := hrole .children
    obtain ⟨_, hmetadata⟩ := hrole .metadata
    obtain ⟨_, hconstraints⟩ := hrole .constraints
    exact ⟨_, .mk hchildren hmetadata hconstraints⟩

/-- The holder at the first of some places where a node is met. -/
def holderIn (target : NodeRef) (l : List Place) : Option NodeRef :=
  (l.find? (·.2 = target)).map Prod.fst

theorem holderIn_cons (holder entry : NodeRef) (l : List Place) :
    holderIn target ((holder, entry) :: l) =
      if entry = target then some holder else holderIn target l := by
  by_cases h : entry = target <;> simp [holderIn, h]

theorem holderIn_append (l l' : List Place) :
    holderIn target (l ++ l') = (holderIn target l).or (holderIn target l') := by
  rw [holderIn, List.find?_append, holderIn, holderIn]
  cases l.find? (·.2 = target) <;> rfl

/-- Searching entries one by one comes to the first place among those at and below them, if
searching below each of them does. -/
theorem searchEntries_eq_holderIn {below : NodeRef → Except Fault (Option NodeRef)}
    {entries : List NodeRef} {l : List Place}
    (hbelow : ∀ e ∈ entries, ∀ l, s.DepthFirst e l → below e = .ok (holderIn target l))
    (hl : s.Entered r entries l) :
    searchEntries below target r entries = .ok (holderIn target l) := by
  induction entries generalizing l with
  | nil =>
    cases hl
    rfl
  | cons e rest ih =>
    obtain ⟨hfirst, hrest⟩ := List.forall_mem_cons.mp hbelow
    cases hl with
    | cons he hafter =>
      rw [searchEntries, holderIn_cons]
      by_cases htarget : e = target
      · rw [if_pos htarget, if_pos htarget]
      · rw [if_neg htarget, if_neg htarget, holderIn_append, hfirst _ he]
        cases hfound : holderIn target _ with
        | some p => rfl
        | none => exact ih hrest hafter

/-- So does a search that is deep enough. -/
theorem searchBelow_eq_holderIn (h : EndsWithin s.held n r) {l : List Place}
    (hl : s.DepthFirst r l) : s.searchBelow target n r = .ok (holderIn target l) := by
  induction n generalizing r l with
  | zero => exact h.elim
  | succ n ih => exact searchEntries_eq_holderIn (fun e he _ hl => ih (h e he) hl) hl.entered

/-- What is reached below a node is held by something that is reached. -/
theorem reaches_iff_held (hne : root ≠ target) :
    Reaches s.held root target ↔ ∃ p, Reaches s.held root p ∧ target ∈ s.held p := by
  constructor
  · intro h
    rcases Relation.ReflTransGen.cases_tail h with e | ⟨p, hp, htarget⟩
    · exact absurd e.symm hne
    · exact ⟨p, hp, htarget⟩
  · rintro ⟨p, hp, htarget⟩
    exact hp.below htarget

/-- In a graph without cycles a search gives the holder at the first place where its target is met
depth first, except that the root it starts from has none. It gives none only for the root and for
what is not reached at all; and if something that is reached is the only holder of the target, it
gives that. -/
theorem findParent_first_holder (ha : Acyclic s.held root) (target : NodeRef) :
    (∃ l, s.DepthFirst root l) ∧
      (∀ l, s.DepthFirst root l → s.findParent target root =
        .ok (if target = root then none else holderIn target l)) ∧
      (s.findParent target root = .ok none ↔ target = root ∨ ¬ Reaches s.held root target) ∧
      ∀ p, Reaches s.held root p → target ∈ s.held p →
        (∀ q, Reaches s.held root q → target ∈ s.held q → q = p) →
        s.findParent target root = .ok (some p) := by
  have hends := endsWithin_held ha
  obtain ⟨found, hfound, hsome, hnone⟩ : ∃ found,
      s.searchBelow target s.depthBound root = .ok found ∧ s.Finds target root found :=
    searchBelow_spec hends
  refine ⟨exists_depthFirst hends, fun l hl => ?_, ?_, fun p hp htarget honly => ?_⟩
  · rw [findParent, searchBelow_eq_holderIn hends hl]
    by_cases he : root = target
    · rw [if_pos he, if_pos he.symm]
    · rw [if_neg he, if_neg (Ne.symm he)]
  · by_cases he : root = target
    · exact iff_of_true (if_pos he) (.inl he.symm)
    · rw [findParent, if_neg he, hfound, or_iff_right (Ne.symm he), reaches_iff_held he]
      constructor
      · rintro ⟨⟩ ⟨p, hp, htarget⟩
        exact hnone rfl p hp htarget
      · intro hunreached
        cases found with
        | none => rfl
        | some p => exact absurd ⟨p, hsome p rfl⟩ hunreached
  · have hne : root ≠ target := by
      rintro rfl
      exact ha root (.refl root) (Relation.TransGen.tail' hp htarget)
    rw [findParent, if_neg hne, hfound]
    cases found with
    | none => exact absurd htarget (hnone rfl p hp)
    | some q => rw [honly q (hsome q rfl).1 (hsome q rfl).2]

/-- Two rooms that look alike, in a house. A lamp is among the metadata of the house, and it is a
child of both rooms. -/
def house : Store :=
  let s := (initial.allocNode (Builtin.node "lamp" Builtin.property .plain)).2
  let s := (s.allocNode { Builtin.node "room" Builtin.property .plain with
    children := .ofList [("lamp", ⟨8⟩)] }).2
  let s := (s.allocNode { Builtin.node "room" Builtin.property .plain with
    children := .ofList [("lamp", ⟨8⟩)] }).2
  (s.allocNode { Builtin.node "house" Builtin.property .plain with
    metadata := .ofList [("light", ⟨8⟩)], children := .ofList [("a", ⟨10⟩), ("b", ⟨9⟩)] }).2

/-- The lamp is met below the first child before it is met among the metadata. The rooms are told
apart, and the house has no parent. -/
theorem house_first_holder :
    Acyclic house.held ⟨11⟩ ∧
      house.DepthFirst ⟨11⟩
        [(⟨11⟩, ⟨10⟩), (⟨10⟩, ⟨8⟩), (⟨11⟩, ⟨9⟩), (⟨9⟩, ⟨8⟩), (⟨11⟩, ⟨8⟩)] ∧
      house.findParent ⟨8⟩ ⟨11⟩ = .ok (some ⟨10⟩) ∧ house.findParent ⟨9⟩ ⟨11⟩ = .ok (some ⟨11⟩) ∧
      house.findParent ⟨11⟩ ⟨11⟩ = .ok none := by
  have ha : Acyclic house.held ⟨11⟩ :=
    (by decide : EndsWithin house.held 3 ⟨11⟩).acyclic
  have hlamp : house.DepthFirst ⟨8⟩ [] :=
    @DepthFirst.mk _ ⟨8⟩ [] [] [] (.nil _) (.nil _) (.nil _)
  have hroom : ∀ r : NodeRef, (house.node r).children.values = [⟨8⟩] →
      (house.node r).metadata.values = [] → (house.node r).constraints.values = [] →
      house.DepthFirst r [(r, ⟨8⟩)] := fun r hchildren hmetadata hconstraints =>
    @DepthFirst.mk _ r [(r, ⟨8⟩)] [] [] (hchildren ▸ .cons hlamp (.nil r)) (hmetadata ▸ .nil r)
      (hconstraints ▸ .nil r)
  have hl : house.DepthFirst ⟨11⟩
      [(⟨11⟩, ⟨10⟩), (⟨10⟩, ⟨8⟩), (⟨11⟩, ⟨9⟩), (⟨9⟩, ⟨8⟩), (⟨11⟩, ⟨8⟩)] :=
    @DepthFirst.mk _ ⟨11⟩ [(⟨11⟩, ⟨10⟩), (⟨10⟩, ⟨8⟩), (⟨11⟩, ⟨9⟩), (⟨9⟩, ⟨8⟩)] [(⟨11⟩, ⟨8⟩)] []
      (.cons (hroom ⟨10⟩ rfl rfl rfl) (.cons (hroom ⟨9⟩ rfl rfl rfl) (.nil _)))
      (.cons hlamp (.nil _)) (.nil _)
  exact ⟨ha, hl, (findParent_first_holder ha ⟨8⟩).2.1 _ hl,
    (findParent_first_holder ha ⟨9⟩).2.1 _ hl,
    (findParent_first_holder ha ⟨11⟩).2.2.1.mpr (.inl rfl)⟩

end LiveTree.Store
