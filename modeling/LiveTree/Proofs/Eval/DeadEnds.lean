import LiveTree.Proofs.Eval.Marks

/-! Paths that lead nowhere. A path of words goes on from a mark in the tree, or inside the value of
a loop variable, as long as each word names something there. Where one does not, whatever the word
and the place, the whole path is absent: nothing is evaluated and nothing fails. A path that meets
no such word ends at a value, or at an expression, which is then evaluated once; so a fault is that
expression's own. There are two exceptions. Digits that write no number, such as superscripts, fail
as the position in a sequence, and so does a parent that is searched for along a cycle. -/

open Relation (ReflTransGen)

namespace LiveTree

/-! ### Inside a value -/

/-- Where a path of words stands inside the value of a loop variable. The store is part of it, since
to read the map of a node makes a dictionary. -/
structure Inside where
  value : Value
  store : Store
  rest : List String

/-- The fields of a node that a path inside a value may read. -/
def Store.fieldWords : List String :=
  ["value", "type", "id", "children", "metadata", "constraints", "default_value"]

/-- Whether a word is made of digits, of any script and sort. -/
def IsDigits (word : String) : Prop := word.toList ≠ [] ∧ ∀ d ∈ word.toList, Text.isDigit d = true

instance (word : String) : Decidable (IsDigits word) :=
  inferInstanceAs (Decidable (word.toList ≠ [] ∧ ∀ d ∈ word.toList, Text.isDigit d = true))

namespace Inside

/-- A word of the path leads further inside a value. -/
inductive Inward : Inside → Inside → Prop
  | field {word : String} (r : NodeRef) (s : Store) (rest : List String)
      (hword : word ∈ Store.fieldWords) :
    Inward ⟨.node r, s, word :: rest⟩ ⟨(s.field r word).1, (s.field r word).2, rest⟩
  | entry {r : DictRef} {s : Store} {word : String} {v : Value} (rest : List String)
      (h : (s.dict r).get? word = some v) : Inward ⟨.dict r, s, word :: rest⟩ ⟨v, s, rest⟩
  | element {v w : Value} {s : Store} {word : String} {items : List Value} {i : ℕ}
      (rest : List String) (hitems : s.sequence? v = some items) (hdigits : IsDigits word)
      (hi : Text.readNat? word.toList = some i) (hw : items[i]? = some w) :
    Inward ⟨v, s, word :: rest⟩ ⟨w, s, rest⟩

/-- The next word names nothing inside the value: no field of the node, no key of the dictionary, no
position in the sequence, or anything at all in a value that has no parts. -/
inductive Misfit : Inside → Prop
  | noField {word : String} (r : NodeRef) (s : Store) (rest : List String)
      (hword : word ∉ Store.fieldWords) : Misfit ⟨.node r, s, word :: rest⟩
  | noEntry {r : DictRef} {s : Store} {word : String} (rest : List String)
      (h : (s.dict r).get? word = none) : Misfit ⟨.dict r, s, word :: rest⟩
  | noDigits {v : Value} {s : Store} {word : String} {items : List Value} (rest : List String)
      (hitems : s.sequence? v = some items) (hdigits : ¬ IsDigits word) :
    Misfit ⟨v, s, word :: rest⟩
  | noElement {v : Value} {s : Store} {word : String} {items : List Value} {i : ℕ}
      (rest : List String) (hitems : s.sequence? v = some items) (hdigits : IsDigits word)
      (hi : Text.readNat? word.toList = some i) (hlength : items.length ≤ i) :
    Misfit ⟨v, s, word :: rest⟩
  | noParts {v : Value} {s : Store} (word : String) (rest : List String)
      (hitems : s.sequence? v = none) (hnode : v.asNode? = none) (hdict : ∀ r, v ≠ .dict r) :
    Misfit ⟨v, s, word :: rest⟩

/-- The next word is to be a position, and its digits write no number. -/
inductive Unreadable : Inside → Prop
  | mk {v : Value} {s : Store} {word : String} {items : List Value} (rest : List String)
      (hitems : s.sequence? v = some items) (hdigits : IsDigits word)
      (hi : Text.readNat? word.toList = none) : Unreadable ⟨v, s, word :: rest⟩

/-- What the path comes to inside the value. -/
def follow (i : Inside) : Outcome Value := followBinding i.value (i.rest.map .name) i.store

end Inside

variable {eval : Evaluator} {c : Context} {s t : Store} {m m' : Mark} {i j : Inside} {v : Value}
  {q : NodeRef} {words : List String}

theorem isDigits_iff {word : String} :
    IsDigits word ↔ ¬(word.isEmpty || !word.toList.all Text.isDigit) = true := by
  simp [IsDigits]

theorem Segment.index?_of_not_digits {word : String} (h : ¬IsDigits word) :
    (Segment.name word).index? = .ok none := by
  rw [index?]
  exact if_pos (not_not.mp (isDigits_iff.not.mp h))

theorem Segment.index?_of_digits {word : String} (h : IsDigits word) :
    (Segment.name word).index? = match Text.readNat? word.toList with
      | some i => .ok (some i)
      | none => .error .unreadableNumber := by
  rw [index?]
  exact if_neg (isDigits_iff.mp h)

/-- A field that no word names is absent. -/
theorem Store.field_of_notMem {word : String} (r : NodeRef) (h : word ∉ fieldWords) :
    s.field r word = (.none, s) := by
  have hdefault : word ≠ "default_value" := fun heq => h (by simp [heq, fieldWords])
  rw [field, if_neg hdefault]
  obtain rfl | rfl | rfl | rfl | ⟨role, rfl⟩ | hword := Keyword.word_cases word
  · exact absurd (by decide) h
  · exact absurd (by decide) h
  · exact absurd (by decide) h
  · rfl
  · cases role <;> exact absurd (by decide) h
  · rw [hword]

theorem followBinding_none (segs : List Segment) : followBinding .none segs s = .done .none s := by
  cases segs <;> rfl

namespace Inside

/-- What a path comes to that goes on by a position in a sequence. -/
theorem follow_sequence {word : String} {items : List Value} (hitems : s.sequence? v = some items)
    (rest : List String) :
    follow ⟨v, s, word :: rest⟩ = match (Segment.name word).index? with
      | .ok (some i) => follow ⟨items.getD i .none, s, rest⟩
      | .ok none => .done .none s
      | .error e => .failed e (.ended s) := by
  rw [follow, List.map_cons, followBinding]
  cases v with
  | list r =>
    cases hitems
    show ((Outcome.ofExcept s (Segment.name word).index?).bind _).bind _ = _
    obtain e | _ | i := (Segment.name word).index? <;> rfl
  | tuple r =>
    cases hitems
    show ((Outcome.ofExcept s (Segment.name word).index?).bind _).bind _ = _
    obtain e | _ | i := (Segment.name word).index? <;> rfl
  | _ => cases hitems

/-- What a path comes to that goes on by a key of a dictionary. -/
theorem follow_dict (r : DictRef) (word : String) (rest : List String) :
    follow ⟨.dict r, s, word :: rest⟩ = follow ⟨((s.dict r).get? word).getD .none, s, rest⟩ := rfl

/-- One step: the path comes to the same further inside. -/
theorem Inward.follow_eq (h : Inward i j) : i.follow = j.follow := by
  cases h with
  | field r s rest hword => rfl
  | entry rest h =>
    rw [follow_dict, h]
    rfl
  | element rest hitems hdigits hi hw =>
    rw [follow_sequence hitems, Segment.index?_of_digits hdigits, hi]
    dsimp only
    rw [List.getD_eq_getElem?_getD, hw]
    rfl

/-- All steps: the path comes to the same from everywhere that it reaches. -/
theorem follow_eq_of_reaches (h : ReflTransGen Inward i j) : i.follow = j.follow := by
  induction h with
  | refl => rfl
  | tail _ hstep ih => exact ih.trans hstep.follow_eq

/-- A word that names nothing makes the path absent. -/
theorem Misfit.follow_eq (h : Misfit i) : i.follow = .done .none i.store := by
  cases h with
  | noField r s rest hword =>
    show followBinding (s.field r _).1 _ (s.field r _).2 = _
    rw [Store.field_of_notMem r hword]
    exact followBinding_none _
  | noEntry rest h =>
    rw [follow_dict, h]
    exact followBinding_none _
  | noDigits rest hitems hdigits =>
    rw [follow_sequence hitems, Segment.index?_of_not_digits hdigits]
  | noElement rest hitems hdigits hi hlength =>
    rw [follow_sequence hitems, Segment.index?_of_digits hdigits, hi]
    dsimp only
    rw [List.getD_eq_getElem?_getD, List.getElem?_eq_none_iff.mpr hlength]
    exact followBinding_none _
  | @noParts v s word rest hitems hnode hdict =>
    cases v with
    | list r => cases hitems
    | tuple r => cases hitems
    | dict r => exact absurd rfl (hdict r)
    | node r => cases hnode
    | _ => rfl

theorem Unreadable.follow_eq (h : Unreadable i) :
    i.follow = .failed .unreadableNumber (.ended i.store) := by
  cases h with
  | mk rest hitems hdigits hi =>
    rw [follow_sequence hitems, Segment.index?_of_digits hdigits, hi]

/-- A path always goes on or ends, in one of these ways. -/
theorem exists_next (i : Inside) :
    (∃ j, Inward i j ∧ j.rest.length < i.rest.length) ∨ i.rest = [] ∨ Misfit i ∨ Unreadable i := by
  obtain ⟨v, s, rest⟩ := i
  cases rest with
  | nil => exact .inr (.inl rfl)
  | cons word rest =>
    have hshort : rest.length < (word :: rest).length := Nat.lt_succ_self _
    cases hitems : s.sequence? v with
    | some items =>
      by_cases hdigits : IsDigits word
      · cases hi : Text.readNat? word.toList with
        | none => exact .inr (.inr (.inr ⟨rest, hitems, hdigits, hi⟩))
        | some i =>
          cases hw : items[i]? with
          | some w => exact .inl ⟨_, .element rest hitems hdigits hi hw, hshort⟩
          | none =>
            have hlength := List.getElem?_eq_none_iff.mp hw
            exact .inr (.inr (.inl (.noElement rest hitems hdigits hi hlength)))
      · exact .inr (.inr (.inl (.noDigits rest hitems hdigits)))
    | none =>
      cases v with
      | node r =>
        by_cases hword : word ∈ Store.fieldWords
        · exact .inl ⟨_, .field r s rest hword, hshort⟩
        · exact .inr (.inr (.inl (.noField r s rest hword)))
      | dict r =>
        cases hentry : (s.dict r).get? word with
        | some v => exact .inl ⟨_, .entry rest hentry, hshort⟩
        | none => exact .inr (.inr (.inl (.noEntry rest hentry)))
      | _ => exact .inr (.inr (.inl (.noParts word rest hitems rfl nofun)))

/-- Every path comes to its end, by induction on the words that are left. -/
theorem exists_end (i : Inside) :
    ∃ j, ReflTransGen Inward i j ∧ (j.rest = [] ∨ Misfit j ∨ Unreadable j) := by
  induction hn : i.rest.length using Nat.strongRecOn generalizing i with
  | ind n ih =>
    obtain ⟨j, hstep, hshort⟩ | hend := exists_next i
    · obtain ⟨last, hreach, hend⟩ := ih _ (hn ▸ hshort) j rfl
      exact ⟨last, .head hstep hreach, hend⟩
    · exact ⟨i, .refl, hend⟩

end Inside

/-! ### From the start -/

namespace Context

/-- The words that choose where a path starts. -/
def startWords : List String := ["self", "root", "parent"]

/-- The value of a loop variable. -/
def bound? (c : Context) (word : String) : Option Value := c.bindings.bind (·.get? word)

/-- The mark from which a path goes on in the tree. -/
inductive Starts (c : Context) (s : Store) : List String → Mark → Prop
  | self (rest : List String) : Starts c s ("self" :: rest) ⟨c.current, c.current, rest⟩
  | root (rest : List String) : Starts c s ("root" :: rest) ⟨c.root, c.root, rest⟩
  | parent {q : NodeRef} (rest : List String) (h : c.parent s c.current = .ok (some q)) :
    Starts c s ("parent" :: rest) ⟨q, q, rest⟩
  | here {word : String} (rest : List String) (hword : word ∉ startWords)
      (h : c.bound? word = none) :
    Starts c s (word :: rest) ⟨c.current, c.current, word :: rest⟩

/-- Where a path goes on that starts with a loop variable. -/
inductive Enters (c : Context) (s : Store) : List String → Inside → Prop
  | mk {word : String} {v : Value} (rest : List String) (hword : word ∉ startWords)
      (h : c.bound? word = some v) : Enters c s (word :: rest) ⟨v, s, rest⟩

/-- The path has no words, or comes to one that names nothing where it stands. -/
inductive LeadsNowhere (c : Context) (s : Store) : List String → Store → Prop
  | empty : LeadsNowhere c s [] s
  | noParent (rest : List String) (h : c.parent s c.current = .ok none) :
    LeadsNowhere c s ("parent" :: rest) s
  | tree {words : List String} {m m' : Mark} (hstart : c.Starts s words m)
      (hreach : ReflTransGen (Mark.Onward c s) m m') (hend : m'.DeadEnd c s) :
    LeadsNowhere c s words s
  | inside {words : List String} {i j : Inside} (hstart : c.Enters s words i)
      (hreach : ReflTransGen Inside.Inward i j) (hend : j.Misfit) :
    LeadsNowhere c s words j.store

/-- The path leads to a value. -/
inductive LeadsToValue (c : Context) (s : Store) : List String → Value → Store → Prop
  | tree {words : List String} {m m' : Mark} {v : Value} (hstart : c.Starts s words m)
      (hreach : ReflTransGen (Mark.Onward c s) m m') (hend : m'.Ends s v) :
    LeadsToValue c s words v s
  | inside {words : List String} {i j : Inside} (hstart : c.Enters s words i)
      (hreach : ReflTransGen Inside.Inward i j) (hend : j.rest = []) :
    LeadsToValue c s words j.value j.store

/-- The path leads to a node that is to be evaluated for an owner. -/
inductive LeadsToExpression (c : Context) (s : Store) : List String → NodeRef → NodeRef → Prop
  | mk {words : List String} {m m' : Mark} {q : NodeRef} (hstart : c.Starts s words m)
      (hreach : ReflTransGen (Mark.Onward c s) m m') (hend : m'.Meets s q) :
    LeadsToExpression c s words m'.owner q

/-- The path asks for a position in a sequence by digits that write no number. -/
inductive LeadsToUnreadable (c : Context) (s : Store) : List String → Store → Prop
  | mk {words : List String} {i j : Inside} (hstart : c.Enters s words i)
      (hreach : ReflTransGen Inside.Inward i j) (hend : j.Unreadable) :
    LeadsToUnreadable c s words j.store

/-- The path asks for a parent that is searched for without end. -/
inductive LeadsAround (c : Context) (s : Store) : List String → Prop
  | start (rest : List String) (h : c.parent s c.current = .error .endless) :
    LeadsAround c s ("parent" :: rest)
  | tree {words : List String} {m m' : Mark} (hstart : c.Starts s words m)
      (hreach : ReflTransGen (Mark.Onward c s) m m') (hend : m'.Endless c s) :
    LeadsAround c s words

end Context

/-- What a path comes to that does not start with `self`, `root` or `parent`. -/
theorem resolveSegments_of_notMem {word : String} (hword : word ∉ Context.startWords)
    (rest : List String) :
    resolveSegments eval c ((word :: rest).map .name) s =
      match c.bound? word with
      | some v => Inside.follow ⟨v, s, rest⟩
      | none => Mark.walk eval c ⟨c.current, c.current, word :: rest⟩ s := by
  have hne : ∀ start ∈ Context.startWords, Segment.name word ≠ .name start := by
    rintro start hstart heq
    cases heq
    exact hword hstart
  rw [List.map_cons, resolveSegments, if_neg (hne _ (by decide)), if_neg (hne _ (by decide)),
    if_neg (hne _ (by decide)), Context.bound?]
  cases c.bindings with
  | none => rfl
  | some bindings =>
    show (match bindings.get? word with
      | some v => followBinding v _
      | none => walk eval c _ _ _ : EvalM Value) s = match bindings.get? word with
      | some v => _
      | none => _
    cases bindings.get? word <;> rfl

theorem Context.Starts.resolveSegments_eq (h : c.Starts s words m) :
    resolveSegments eval c (words.map .name) s = m.walk eval c s := by
  cases h with
  | self rest => rfl
  | root rest => rfl
  | parent rest h =>
    show (EvalM.check (c.parent · c.current) >>= _) s = _
    rw [EvalM.check_bind h]
    rfl
  | here rest hword h => rw [resolveSegments_of_notMem hword, h]

theorem Context.Enters.resolveSegments_eq (h : c.Enters s words i) :
    resolveSegments eval c (words.map .name) s = i.follow := by
  cases h with
  | mk rest hword h => rw [resolveSegments_of_notMem hword, h]

theorem Context.LeadsNowhere.resolveSegments_eq (h : c.LeadsNowhere s words t) :
    resolveSegments eval c (words.map .name) s = .done .none t := by
  cases h with
  | empty => rfl
  | noParent rest h =>
    show (EvalM.check (c.parent · c.current) >>= _) s = _
    rw [EvalM.check_bind h, walk]
    rfl
  | tree hstart hreach hend =>
    rw [hstart.resolveSegments_eq, Mark.walk_eq_of_reaches hreach, hend.walk_eq]
  | inside hstart hreach hend =>
    rw [hstart.resolveSegments_eq, Inside.follow_eq_of_reaches hreach, hend.follow_eq]

theorem Context.LeadsToValue.resolveSegments_eq (h : c.LeadsToValue s words v t) :
    resolveSegments eval c (words.map .name) s = .done v t := by
  cases h with
  | tree hstart hreach hend =>
    rw [hstart.resolveSegments_eq, Mark.walk_eq_of_reaches hreach, hend.walk_eq]
  | inside hstart hreach hend =>
    rw [hstart.resolveSegments_eq, Inside.follow_eq_of_reaches hreach, Inside.follow, hend]
    rfl

theorem Context.LeadsToExpression.resolveSegments_eq {owner : NodeRef}
    (h : c.LeadsToExpression s words owner q) :
    resolveSegments eval c (words.map .name) s = eval (c.focus owner) q s := by
  obtain ⟨hstart, hreach, hend⟩ := h
  rw [hstart.resolveSegments_eq, Mark.walk_eq_of_reaches hreach, hend.walk_eq]

theorem Context.LeadsToUnreadable.resolveSegments_eq (h : c.LeadsToUnreadable s words t) :
    resolveSegments eval c (words.map .name) s = .failed .unreadableNumber (.ended t) := by
  obtain ⟨hstart, hreach, hend⟩ := h
  rw [hstart.resolveSegments_eq, Inside.follow_eq_of_reaches hreach, hend.follow_eq]

theorem Context.LeadsAround.resolveSegments_eq (h : c.LeadsAround s words) :
    resolveSegments eval c (words.map .name) s = .failed .endless (.ended s) := by
  cases h with
  | start rest h =>
    show (Outcome.ofExcept s (c.parent s c.current)).bind _ = _
    rw [h]
    rfl
  | tree hstart hreach hend =>
    rw [hstart.resolveSegments_eq, Mark.walk_eq_of_reaches hreach, hend.walk_eq]

/-- Every path that goes on in the tree leads somewhere. -/
theorem Context.Starts.leads (hstart : c.Starts s words m) :
    (∃ t, c.LeadsNowhere s words t) ∨ (∃ v t, c.LeadsToValue s words v t) ∨
      (∃ owner q, c.LeadsToExpression s words owner q) ∨
      (∃ t, c.LeadsToUnreadable s words t) ∨ c.LeadsAround s words := by
  obtain ⟨m', hreach, hend | ⟨v, hend⟩ | ⟨q, hend⟩ | hend⟩ := m.exists_end c s
  · exact .inl ⟨s, .tree hstart hreach hend⟩
  · exact .inr (.inl ⟨v, s, .tree hstart hreach hend⟩)
  · exact .inr (.inr (.inl ⟨_, q, .mk hstart hreach hend⟩))
  · exact .inr (.inr (.inr (.inr (.tree hstart hreach hend))))

/-- Every path leads somewhere, in one of these ways. -/
theorem Context.exists_leads (c : Context) (s : Store) (words : List String) :
    (∃ t, c.LeadsNowhere s words t) ∨ (∃ v t, c.LeadsToValue s words v t) ∨
      (∃ owner q, c.LeadsToExpression s words owner q) ∨
      (∃ t, c.LeadsToUnreadable s words t) ∨ c.LeadsAround s words := by
  cases words with
  | nil => exact .inl ⟨s, .empty⟩
  | cons word rest =>
    by_cases hword : word ∈ startWords
    · simp only [startWords, List.mem_cons, List.not_mem_nil, or_false] at hword
      obtain rfl | rfl | rfl := hword
      · exact (Starts.self rest).leads
      · exact (Starts.root rest).leads
      · cases hparent : c.parent s c.current with
        | error e =>
          obtain rfl := parent_error hparent
          exact .inr (.inr (.inr (.inr (.start rest hparent))))
        | ok found =>
          cases found with
          | none => exact .inl ⟨s, .noParent rest hparent⟩
          | some q => exact (Starts.parent rest hparent).leads
    · cases hbound : c.bound? word with
      | none => exact (Starts.here rest hword hbound).leads
      | some v =>
        have hstart : c.Enters s (word :: rest) ⟨v, s, rest⟩ := .mk rest hword hbound
        obtain ⟨j, hreach, hend | hend | hend⟩ := Inside.exists_end ⟨v, s, rest⟩
        · exact .inr (.inl ⟨_, _, .inside hstart hreach hend⟩)
        · exact .inl ⟨_, .inside hstart hreach hend⟩
        · exact .inr (.inr (.inr (.inl ⟨_, .mk hstart hreach hend⟩)))

/-- A path of words is absent as soon as one of them names nothing where the path stands, in the
tree or inside the value of a loop variable. A path without such a word comes to the value that it
leads to or to what the expression there is evaluated to for its owner, so that a fault is the
fault of that evaluation, unless digits that write no number are to be a position in a sequence, or
a parent is searched for along a cycle. -/
theorem resolve_words [Host] {path : Value} (hpath : s.sequence? path = some (words.map .str)) :
    (∀ t, c.LeadsNowhere s words t → resolve c path s = .done .none t) ∧
      ((∃ t, c.LeadsNowhere s words t) ∨
        (∃ v t, c.LeadsToValue s words v t ∧ resolve c path s = .done v t) ∨
        (∃ owner q, c.LeadsToExpression s words owner q ∧
          resolve c path s = evaluate (c.focus owner) q s) ∨
        (∃ t, c.LeadsToUnreadable s words t ∧
          resolve c path s = .failed .unreadableNumber (.ended t)) ∨
        c.LeadsAround s words ∧ resolve c path s = .failed .endless (.ended s)) := by
  have hresolve : resolve c path s = resolveSegments evaluate c (words.map .name) s := by
    rw [resolve, resolvePath, EvalM.check_bind (Store.segments_of_sequence hpath)]
  rw [hresolve]
  refine ⟨fun t h => h.resolveSegments_eq, ?_⟩
  obtain h | ⟨v, t, h⟩ | ⟨owner, q, h⟩ | ⟨t, h⟩ | h := c.exists_leads s words
  · exact .inl h
  · exact .inr (.inl ⟨v, t, h, h.resolveSegments_eq⟩)
  · exact .inr (.inr (.inl ⟨owner, q, h, h.resolveSegments_eq⟩))
  · exact .inr (.inr (.inr (.inl ⟨t, h, h.resolveSegments_eq⟩)))
  · exact .inr (.inr (.inr (.inr ⟨h, h.resolveSegments_eq⟩)))

/-- The store of the tally with a dictionary that holds a list, and a path that takes the list for a
node. -/
def Store.catalog : Store :=
  { tally.forest.store with
    lists := tally.forest.store.lists ++
      #[["new", "sale"].map .str, ["item", "tags", "children", "0"].map .str]
    dicts := #[.ofList [("tags", .list ⟨3⟩)]] }

theorem catalog_words :
    let c := { tally.forest.contextAt ⟨0⟩ ⟨0⟩ .standard with
      bindings := some (.ofList [("item", .dict ⟨0⟩)]) }
    Store.catalog.sequence? (.list ⟨4⟩) = some (["item", "tags", "children", "0"].map .str) ∧
      @resolve Host.none c (.list ⟨4⟩) .catalog = .done .none .catalog := by
  refine ⟨rfl, (@resolve_words _ .catalog _ Host.none (.list ⟨4⟩) rfl).1 _ ?_⟩
  have hchars : "children".toList = ['c', 'h', 'i', 'l', 'd', 'r', 'e', 'n'] := String.toList_ofList
  have hword : ¬ IsDigits "children" := fun h =>
    absurd (h.2 'c' (hchars ▸ List.mem_cons_self)) (by decide)
  exact .inside (.mk _ (by decide) rfl) (.single (.entry _ rfl)) (.noDigits _ rfl hword)

end LiveTree
