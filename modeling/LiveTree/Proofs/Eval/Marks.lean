import LiveTree.Proofs.Eval.ChildSteps
import Mathlib.Logic.Relation

/-! Where a path of words stands in the tree. Each word leads on to another mark, or names nothing
there, or ends the path at a value or at a node to be evaluated. What a path comes to is settled at
the mark where it ends, and a word that names nothing makes the whole path absent. -/

open Relation (ReflTransGen)

namespace LiveTree

/-- Where a path of words stands: at a node, with the owner that an expression found there would see
as `self`, and with the words that are left. -/
structure Mark where
  node : NodeRef
  owner : NodeRef
  rest : List String

namespace Mark

/-- A word of the path leads on from one mark to another. -/
inductive Onward (c : Context) (s : Store) : Mark → Mark → Prop
  | type (r owner : NodeRef) (rest : List String) :
    Onward c s ⟨r, owner, "type" :: rest⟩ ⟨(s.node r).type, (s.node r).type, rest⟩
  | parent {r q : NodeRef} (owner : NodeRef) (rest : List String)
      (h : c.parent s r = .ok (some q)) :
    Onward c s ⟨r, owner, "parent" :: rest⟩ ⟨q, q, rest⟩
  | entry {r q : NodeRef} {key : String} (role : Role) (owner : NodeRef) (rest : List String)
      (h : ((s.node r).entries role).get? key = some q) :
    Onward c s ⟨r, owner, role.name :: key :: rest⟩
      ⟨q, if role = .children then q else r, rest⟩
  | child {r q : NodeRef} {word : String} (owner : NodeRef) (rest : List String)
      (hword : Keyword.ofName? word = none) (h : (s.node r).children.get? word = some q) :
    Onward c s ⟨r, owner, word :: rest⟩ ⟨q, q, rest⟩
  | metadata {r q : NodeRef} {word : String} (owner : NodeRef) (rest : List String)
      (hword : Keyword.ofName? word = none) (hchild : (s.node r).children.get? word = none)
      (h : (s.node r).metadata.get? word = some q) :
    Onward c s ⟨r, owner, word :: rest⟩ ⟨q, r, rest⟩

/-- The next word names nothing at the node: a map is entered without a key or by a key that it does
not have, there is no parent or no value, or the word is neither a keyword nor a key. -/
inductive DeadEnd (c : Context) (s : Store) : Mark → Prop
  | noKey (role : Role) (r owner : NodeRef) : DeadEnd c s ⟨r, owner, [role.name]⟩
  | noEntry {r : NodeRef} {key : String} (role : Role) (owner : NodeRef) (rest : List String)
      (h : ((s.node r).entries role).get? key = none) :
    DeadEnd c s ⟨r, owner, role.name :: key :: rest⟩
  | noParent {r : NodeRef} (owner : NodeRef) (rest : List String) (h : c.parent s r = .ok none) :
    DeadEnd c s ⟨r, owner, "parent" :: rest⟩
  | noValue {r : NodeRef} (owner : NodeRef) (rest : List String) (h : (s.node r).value = .none) :
    DeadEnd c s ⟨r, owner, "value" :: rest⟩
  | unknown {r : NodeRef} {word : String} (owner : NodeRef) (rest : List String)
      (hword : Keyword.ofName? word = none) (hchild : (s.node r).children.get? word = none)
      (hmetadata : (s.node r).metadata.get? word = none) :
    DeadEnd c s ⟨r, owner, word :: rest⟩

/-- Whether the path asks for the value of the node: at its end, or by the word `value`. -/
def Asks (s : Store) (m : Mark) : Prop :=
  m.rest = [] ∨ (∃ rest, m.rest = "value" :: rest) ∧ (s.node m.node).value ≠ .none

/-- The path ends with a value that is at hand: an id, a value that is no node, or the node itself
where it has none. The words after `id` and `value` are not looked at. -/
inductive Ends (s : Store) : Mark → Value → Prop
  | id (r owner : NodeRef) (rest : List String) :
    Ends s ⟨r, owner, "id" :: rest⟩ (.str (s.node r).id)
  | value {m : Mark} {v : Value} (h : m.Asks s)
      (hkind : (s.node m.node).kind.isExpression = false) (hvalue : (s.node m.node).value = v)
      (hnone : v ≠ .none) (hnode : ∀ q, v ≠ .node q) : Ends s m v
  | node {m : Mark} (h : m.rest = []) (hkind : (s.node m.node).kind.isExpression = false)
      (hvalue : (s.node m.node).value = .none) : Ends s m (.node m.node)

/-- The path ends with a node that is to be evaluated for the owner: an expression, or one held as
the value. -/
inductive Meets (s : Store) : Mark → NodeRef → Prop
  | expression {m : Mark} (h : m.Asks s) (hkind : (s.node m.node).kind.isExpression = true) :
    Meets s m m.node
  | held {m : Mark} {q : NodeRef} (h : m.Asks s)
      (hkind : (s.node m.node).kind.isExpression = false)
      (hvalue : (s.node m.node).value = .node q) : Meets s m q

/-- The next word asks for a parent that is searched for without end. -/
def Endless (c : Context) (s : Store) (m : Mark) : Prop :=
  (∃ rest, m.rest = "parent" :: rest) ∧ c.parent s m.node = .error .endless

/-- What the path comes to from a mark. -/
def walk (eval : Evaluator) (c : Context) (m : Mark) : EvalM Value :=
  LiveTree.walk eval c (some m.node) m.owner (m.rest.map .name)

end Mark

variable {eval : Evaluator} {c : Context} {s : Store} {m m' : Mark} {v : Value} {q : NodeRef}

/-! ### Words and parents -/

theorem Role.keyword_name (role : Role) : Keyword.ofName? role.name =
    some (match role with
      | .metadata => .metadata
      | .constraints => .constraints
      | .children => .children) := by
  cases role <;> rfl

/-- A word is one of the keywords, or none. -/
theorem Keyword.word_cases (word : String) :
    word = "value" ∨ word = "type" ∨ word = "id" ∨ word = "parent" ∨
      (∃ role : Role, word = role.name) ∨ Keyword.ofName? word = none := by
  unfold ofName?
  split_ifs with hvalue htype hid hchildren hmetadata hconstraints hparent
  · exact .inl hvalue
  · exact .inr (.inl htype)
  · exact .inr (.inr (.inl hid))
  · exact .inr (.inr (.inr (.inr (.inl ⟨.children, hchildren⟩))))
  · exact .inr (.inr (.inr (.inr (.inl ⟨.metadata, hmetadata⟩))))
  · exact .inr (.inr (.inr (.inr (.inl ⟨.constraints, hconstraints⟩))))
  · exact .inr (.inr (.inr (.inl hparent)))
  · exact .inr (.inr (.inr (.inr (.inr rfl))))

/-- The search for a parent can only fail by not coming to an end. -/
theorem Store.searchBelow_error {target r : NodeRef} {n : ℕ} {e : Fault}
    (h : s.searchBelow target n r = .error e) : e = .endless := by
  induction n generalizing r with
  | zero =>
    cases h
    rfl
  | succ n ih =>
    rw [searchBelow] at h
    generalize s.held r = entries at h
    induction entries with
    | nil => cases h
    | cons entry rest ihrest =>
      rw [searchEntries] at h
      split at h
      · cases h
      · cases hbelow : s.searchBelow target n entry with
        | error e' =>
          rw [hbelow] at h
          cases h
          exact ih hbelow
        | ok found =>
          rw [hbelow] at h
          cases found with
          | some q => cases h
          | none => exact ihrest h

theorem Context.parent_error {r : NodeRef} {e : Fault} (h : c.parent s r = .error e) :
    e = .endless := by
  have hfind : ∀ root, s.findParent r root = .error e → e = .endless := fun root hroot => by
    rw [Store.findParent] at hroot
    split at hroot
    · cases hroot
    · exact Store.searchBelow_error hroot
  rw [parent] at h
  cases hlookup : c.lookup with
  | none =>
    rw [hlookup] at h
    exact hfind _ h
  | some l =>
    rw [hlookup] at h
    simp only [Lookup.parent] at h
    split at h
    · cases h
    · split at h
      · exact hfind _ h
      · cases h

namespace Mark

/-! ### What a path comes to -/

/-- What a path comes to that enters a map by a key. -/
theorem walk_entry (role : Role) (r owner : NodeRef) (key : String) (rest : List String) :
    walk eval c ⟨r, owner, role.name :: key :: rest⟩ s =
      match ((s.node r).entries role).get? key with
      | some q => walk eval c ⟨q, if role = .children then q else r, rest⟩ s
      | none => .done .none s := by
  have habsent : ∀ owner', LiveTree.walk eval c none owner' (rest.map .name) s =
      .done .none s := fun _ => by
    rw [LiveTree.walk]
    rfl
  rw [walk, List.map_cons, List.map_cons, LiveTree.walk, EvalM.read_bind]
  simp only [Keyword.ofSegment?, Role.keyword_name, Segment.find, EvalM.ofExcept_ok_bind]
  cases role <;>
    · dsimp only [Node.entries]
      split <;> rename_i heq
      · rw [heq]
        rfl
      · rw [heq]
        exact habsent _

/-- What a path comes to that goes on by a word that is no keyword. -/
theorem walk_word {word : String} (hword : Keyword.ofName? word = none) (r owner : NodeRef)
    (rest : List String) :
    walk eval c ⟨r, owner, word :: rest⟩ s =
      match (s.node r).children.get? word with
      | some q => walk eval c ⟨q, q, rest⟩ s
      | none =>
        match (s.node r).metadata.get? word with
        | some q => walk eval c ⟨q, r, rest⟩ s
        | none => .done .none s := by
  rw [walk, List.map_cons, LiveTree.walk, EvalM.read_bind]
  simp only [Keyword.ofSegment?, hword, Segment.find, EvalM.ofExcept_ok_bind]
  cases (s.node r).children.get? word with
  | some q => rfl
  | none => cases (s.node r).metadata.get? word <;> rfl

/-- What a path comes to that asks for the parent. -/
theorem walk_parent {found : Option NodeRef} {r : NodeRef} (h : c.parent s r = .ok found)
    (owner : NodeRef) (rest : List String) :
    walk eval c ⟨r, owner, "parent" :: rest⟩ s =
      match found with
      | some q => walk eval c ⟨q, q, rest⟩ s
      | none => .done .none s := by
  rw [walk, List.map_cons, LiveTree.walk, EvalM.read_bind]
  show (EvalM.check (c.parent · r) >>= _) s = _
  rw [EvalM.check_bind h]
  cases found with
  | some q => rfl
  | none =>
    rw [LiveTree.walk]
    rfl

/-- A path that asks for the value comes to what is settled at the node. -/
theorem Asks.walk_eq (h : m.Asks s) : m.walk eval c s = settle eval c m.node m.owner s := by
  obtain ⟨r, owner, rest⟩ := m
  obtain rfl | ⟨⟨rest, rfl⟩, hvalue⟩ := h
  · rfl
  · refine ownValue_eq_settle ?_
    cases hv : (s.node r).value with
    | none => exact absurd hv hvalue
    | _ => rfl

/-- One step: the path comes to the same from the mark that it leads on to. -/
theorem Onward.walk_eq (h : Onward c s m m') : m.walk eval c s = m'.walk eval c s := by
  cases h with
  | type r owner rest => rfl
  | parent owner rest h => rw [walk_parent h]
  | entry role owner rest h => rw [walk_entry, h]
  | child owner rest hword h => rw [walk_word hword, h]
  | metadata owner rest hword hchild h => rw [walk_word hword, hchild, h]

/-- All steps: the path comes to the same from every mark that it reaches. -/
theorem walk_eq_of_reaches (h : ReflTransGen (Onward c s) m m') :
    m.walk eval c s = m'.walk eval c s := by
  induction h with
  | refl => rfl
  | tail _ hstep ih => exact ih.trans hstep.walk_eq

/-- A word that names nothing makes the path absent. -/
theorem DeadEnd.walk_eq (h : DeadEnd c s m) : m.walk eval c s = .done .none s := by
  cases h with
  | noKey role r owner => cases role <;> rfl
  | noEntry role owner rest h => rw [walk_entry, h]
  | noParent owner rest h => rw [walk_parent h]
  | noValue owner rest h => exact ownValue_of_isNone (by rw [h]; rfl)
  | unknown owner rest hword hchild hmetadata => rw [walk_word hword, hchild, hmetadata]

theorem Ends.walk_eq (h : m.Ends s v) : m.walk eval c s = .done v s := by
  cases h with
  | id r owner rest => rfl
  | value h hkind hvalue hnone hnode =>
    rw [h.walk_eq, settle, EvalM.read_bind, hkind, if_neg Bool.false_ne_true, hvalue]
    cases v with
    | none => exact absurd rfl hnone
    | node q => exact absurd rfl (hnode q)
    | _ => rfl
  | node h hkind hvalue =>
    rw [Asks.walk_eq (.inl h), settle, EvalM.read_bind, hkind, if_neg Bool.false_ne_true, hvalue]
    rfl

theorem Meets.walk_eq (h : m.Meets s q) : m.walk eval c s = eval (c.focus m.owner) q s := by
  cases h with
  | expression h hkind => rw [h.walk_eq, settle, EvalM.read_bind, hkind, if_pos rfl]
  | held h hkind hvalue =>
    rw [h.walk_eq, settle, EvalM.read_bind, hkind, if_neg Bool.false_ne_true, hvalue]

theorem Endless.walk_eq (h : m.Endless c s) : m.walk eval c s = .failed .endless (.ended s) := by
  obtain ⟨r, owner, rest⟩ := m
  obtain ⟨⟨rest, rfl⟩, h⟩ := h
  rw [walk, List.map_cons, LiveTree.walk, EvalM.read_bind]
  show ((Outcome.ofExcept s (c.parent s r)).bind _) = _
  rw [h]
  rfl

/-- A path that asks for the value ends. -/
theorem Asks.ends (h : m.Asks s) : (∃ v, m.Ends s v) ∨ ∃ q, m.Meets s q := by
  cases hkind : (s.node m.node).kind.isExpression with
  | true => exact .inr ⟨_, .expression h hkind⟩
  | false =>
    cases hvalue : (s.node m.node).value with
    | none =>
      obtain hrest | ⟨_, hsome⟩ := h
      · exact .inl ⟨_, .node hrest hkind hvalue⟩
      · exact absurd hvalue hsome
    | node q => exact .inr ⟨q, .held h hkind hvalue⟩
    | _ => exact .inl ⟨_, .value h hkind hvalue nofun nofun⟩

/-- A path always goes on or ends, in one of these ways. -/
theorem exists_next (c : Context) (s : Store) (m : Mark) :
    (∃ m', Onward c s m m' ∧ m'.rest.length < m.rest.length) ∨ DeadEnd c s m ∨
      (∃ v, m.Ends s v) ∨ (∃ q, m.Meets s q) ∨ m.Endless c s := by
  obtain ⟨r, owner, rest⟩ := m
  cases rest with
  | nil => exact .inr (.inr ((Asks.ends (.inl rfl)).imp_right .inl))
  | cons word rest =>
    have hshort : rest.length < (word :: rest).length := Nat.lt_succ_self _
    obtain rfl | rfl | rfl | rfl | ⟨role, rfl⟩ | hword := Keyword.word_cases word
    · by_cases hvalue : (s.node r).value = .none
      · exact .inr (.inl (.noValue owner rest hvalue))
      · exact .inr (.inr ((Asks.ends (.inr ⟨⟨rest, rfl⟩, hvalue⟩)).imp_right .inl))
    · exact .inl ⟨_, .type r owner rest, hshort⟩
    · exact .inr (.inr (.inl ⟨_, .id r owner rest⟩))
    · cases hparent : c.parent s r with
      | error e =>
        obtain rfl := Context.parent_error hparent
        exact .inr (.inr (.inr (.inr ⟨⟨rest, rfl⟩, hparent⟩)))
      | ok found =>
        cases found with
        | none => exact .inr (.inl (.noParent owner rest hparent))
        | some q => exact .inl ⟨_, .parent owner rest hparent, hshort⟩
    · cases rest with
      | nil => exact .inr (.inl (.noKey role r owner))
      | cons key rest =>
        cases hentry : ((s.node r).entries role).get? key with
        | none => exact .inr (.inl (.noEntry role owner rest hentry))
        | some q =>
          exact .inl ⟨_, .entry role owner rest hentry, Nat.lt_succ_of_lt (Nat.lt_succ_self _)⟩
    · cases hchild : (s.node r).children.get? word with
      | some q => exact .inl ⟨_, .child owner rest hword hchild, hshort⟩
      | none =>
        cases hmetadata : (s.node r).metadata.get? word with
        | some q => exact .inl ⟨_, .metadata owner rest hword hchild hmetadata, hshort⟩
        | none => exact .inr (.inl (.unknown owner rest hword hchild hmetadata))

/-- Every path comes to its end, by induction on the words that are left. -/
theorem exists_end (c : Context) (s : Store) (m : Mark) :
    ∃ m', ReflTransGen (Onward c s) m m' ∧
      (DeadEnd c s m' ∨ (∃ v, m'.Ends s v) ∨ (∃ q, m'.Meets s q) ∨ m'.Endless c s) := by
  induction hn : m.rest.length using Nat.strongRecOn generalizing m with
  | ind n ih =>
    obtain ⟨m', hstep, hshort⟩ | hend := exists_next c s m
    · obtain ⟨last, hreach, hend⟩ := ih _ (hn ▸ hshort) m' rfl
      exact ⟨last, .head hstep hreach, hend⟩
    · exact ⟨m, .refl, hend⟩

end Mark

end LiveTree
