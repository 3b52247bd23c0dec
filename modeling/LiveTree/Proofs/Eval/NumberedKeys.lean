import Mathlib.Data.Nat.Digits.Lemmas
import LiveTree.Proofs.Tree.ArgumentHistory

/-! What may stand as a key in an operator expression. A key has a number when it is the common
start of all of them and then decimal digits, of whatever script, as many as are read at all. The
first evaluation hands all children over by increasing number, those with one number in the order
they came, or it fails at the first key that has no number, before the operator is tried. What it
fails with depends on how the key looks: digits that no number is read from are not noticed until
they are read. -/

namespace LiveTree

namespace Text

/-- Whether characters are decimal digits, of whatever script, that write a number. -/
def Decimal (cs : List Char) (n : ℕ) : Prop :=
  cs ≠ [] ∧ ∃ digits : List ℕ, List.Forall₂ (fun c d => digitValue? c = some d) cs digits ∧
    Nat.ofDigits 10 digits.reverse = n

/-- Reading on from what has been read so far shifts it by one place for each further digit. -/
theorem foldlM_eq_some_iff {cs : List Char} {m n : ℕ} :
    cs.foldlM (fun n c => (digitValue? c).map (10 * n + ·)) m = some n ↔
      ∃ digits : List ℕ, List.Forall₂ (fun c d => digitValue? c = some d) cs digits ∧
        Nat.ofDigits 10 (digits.reverse ++ [m]) = n := by
  induction cs generalizing m with
  | nil => simp [List.forall₂_nil_left_iff]
  | cons c cs ih =>
    have hshift : ∀ (d : ℕ) (digits : List ℕ),
        Nat.ofDigits 10 ((d :: digits).reverse ++ [m]) =
          Nat.ofDigits 10 (digits.reverse ++ [10 * m + d]) := by
      intro d digits
      simp only [List.reverse_cons, List.append_assoc, Nat.ofDigits_append, List.singleton_append,
        Nat.ofDigits_cons, Nat.ofDigits_nil]
      ring
    cases hd : digitValue? c with
    | none =>
      simp only [List.foldlM_cons, hd, Option.map_none, Option.bind_eq_bind, Option.bind_none,
        reduceCtorEq, false_iff, not_exists, not_and]
      intro digits hdigits
      cases hdigits with
      | cons hc _ => rw [hd] at hc; cases hc
    | some d =>
      simp only [List.foldlM_cons, hd, Option.map_some, Option.bind_eq_bind, Option.bind_some, ih,
        List.forall₂_cons_left_iff]
      constructor
      · rintro ⟨digits, hdigits, hn⟩
        exact ⟨d :: digits, ⟨d, digits, rfl, hdigits, rfl⟩, (hshift d digits).trans hn⟩
      · rintro ⟨_, ⟨d', digits, hd', hdigits, rfl⟩, hn⟩
        obtain rfl := Option.some.inj hd'
        exact ⟨digits, hdigits, (hshift d digits).symm.trans hn⟩

/-- A number is read exactly from the decimal digits that write it, if they are not too many. -/
theorem readNat?_eq_some_iff {cs : List Char} {n : ℕ} :
    readNat? cs = some n ↔ Decimal cs n ∧ cs.length ≤ numberLength := by
  have hfold : cs.foldlM (fun n c => (digitValue? c).map (10 * n + ·)) 0 = some n ↔
      ∃ digits : List ℕ, List.Forall₂ (fun c d => digitValue? c = some d) cs digits ∧
        Nat.ofDigits 10 digits.reverse = n := by
    simp [foldlM_eq_some_iff, Nat.ofDigits_append]
  unfold readNat? Decimal
  by_cases hempty : cs = []
  · simp [hempty]
  · by_cases hlength : cs.length ≤ numberLength
    · simp [hempty, hlength, hfold]
    · simp [hempty, hlength, Nat.lt_of_not_le hlength]

theorem Decimal.all_isDigit {cs : List Char} {n : ℕ} (h : Decimal cs n) :
    cs.all isDigit = true := by
  obtain ⟨-, digits, hdigits, -⟩ := h
  clear * - hdigits
  induction hdigits with
  | nil => rfl
  | cons hc _ ih => simp [isDigit, hc, ih]

end Text

theorem afterStart_eq_some_iff {start cs digits : List Char} :
    afterStart start cs = some digits ↔ cs = start ++ digits := by
  induction start generalizing cs with
  | nil => simp [afterStart]
  | cons p ps ih =>
    cases cs with
    | nil => simp [afterStart]
    | cons c cs =>
      by_cases h : p = c
      · simp [afterStart, h, ih]
      · simp [afterStart, h, Ne.symm h]

/-- Whether a key is that of the argument with a number. Leading zeros are not told apart, and
neither are scripts. -/
def IsArgument (key : String) (n : ℕ) : Prop :=
  ∃ cs, key.toList = argumentStart ++ cs ∧ Text.Decimal cs n ∧ cs.length ≤ Text.numberLength

/-- Whether a key looks like that of an argument: there are digits of whatever sort after the start,
no matter how many. -/
def LooksLikeArgument (key : String) : Prop :=
  ∃ cs, key.toList = argumentStart ++ cs ∧ cs ≠ [] ∧ cs.all Text.isDigit = true

instance (key : String) : Decidable (LooksLikeArgument key) :=
  decidable_of_iff (∃ cs, afterStart argumentStart key.toList = some cs ∧ cs ≠ [] ∧
      cs.all Text.isDigit = true) <| by
    simp only [afterStart_eq_some_iff, LooksLikeArgument]

theorem IsArgument.looksLike {key : String} {n : ℕ} (h : IsArgument key n) :
    LooksLikeArgument key := by
  obtain ⟨cs, hkey, hdecimal, -⟩ := h
  exact ⟨cs, hkey, hdecimal.1, hdecimal.all_isDigit⟩

theorem argumentNumber_of_looks {key : String} {cs : List Char}
    (hkey : key.toList = argumentStart ++ cs) (hlooks : LooksLikeArgument key) :
    argumentNumber key = match Text.readNat? cs with
      | some n => .ok n
      | none => .error .unreadableNumber := by
  obtain ⟨cs', hkey', hne, hall⟩ := hlooks
  obtain rfl : cs = cs' := List.append_cancel_left (hkey.symm.trans hkey')
  have hdigits : ¬ (cs.isEmpty || !cs.all Text.isDigit) = true := by
    simp only [hall, Bool.not_true, Bool.or_false, List.isEmpty_iff, hne, not_false_eq_true]
  rw [argumentNumber, afterStart_eq_some_iff.mpr hkey]
  exact if_neg hdigits

theorem argumentNumber_of_not_looks {key : String} (hlooks : ¬ LooksLikeArgument key) :
    argumentNumber key = .error (.badArgumentKey key) := by
  unfold argumentNumber
  cases hstart : afterStart argumentStart key.toList with
  | none => rfl
  | some cs =>
    refine if_pos ?_
    by_contra h
    simp only [Bool.or_eq_true, List.isEmpty_iff, Bool.not_eq_true', not_or,
      Bool.not_eq_false] at h
    exact hlooks ⟨cs, afterStart_eq_some_iff.mp hstart, h⟩

/-- The number of a key is the one that its digits write. -/
theorem argumentNumber_eq_ok_iff {key : String} {n : ℕ} :
    argumentNumber key = .ok n ↔ IsArgument key n := by
  by_cases hlooks : LooksLikeArgument key
  · obtain ⟨cs, hkey, -⟩ := id hlooks
    have hread : argumentNumber key = .ok n ↔ Text.readNat? cs = some n := by
      rw [argumentNumber_of_looks hkey hlooks]
      cases Text.readNat? cs <;> simp
    rw [hread, Text.readNat?_eq_some_iff]
    constructor
    · exact fun h => ⟨cs, hkey, h⟩
    · rintro ⟨cs', hkey', h⟩
      obtain rfl : cs = cs' := List.append_cancel_left (hkey.symm.trans hkey')
      exact h
  · rw [argumentNumber_of_not_looks hlooks]
    simpa using fun h : IsArgument key n => hlooks h.looksLike

/-- A key without a number is refused for how it looks, or else when its digits are read. -/
theorem argumentNumber_eq_error {key : String} (h : ∀ n, ¬ IsArgument key n) :
    argumentNumber key =
      .error (if LooksLikeArgument key then .unreadableNumber else .badArgumentKey key) := by
  by_cases hlooks : LooksLikeArgument key
  · obtain ⟨cs, hkey, -⟩ := id hlooks
    have hread := argumentNumber_of_looks hkey hlooks
    cases hn : Text.readNat? cs with
    | none => rw [hread, hn, if_pos hlooks]
    | some n =>
      rw [hn] at hread
      exact absurd (argumentNumber_eq_ok_iff.mp hread) (h n)
  · rw [argumentNumber_of_not_looks hlooks, if_neg hlooks]

instance (key : String) (n : ℕ) : Decidable (IsArgument key n) :=
  decidable_of_iff _ argumentNumber_eq_ok_iff

section Order

variable {keys sorted before after : List String} {key : String}

/-- Keys with one number come out in the order in which they came. -/
theorem argumentOrder_stable (h : argumentOrder keys = .ok sorted) (n : ℕ) :
    sorted.filter (IsArgument · n) = keys.filter (IsArgument · n) := by
  rw [argumentOrder] at h
  rcases numbers_cases keys with ⟨l, hl, hkeys, hnumbers⟩ | ⟨e, he, -⟩
  · rw [hl] at h
    cases h
    let le : Nat × String → Nat × String → Bool := fun a b => decide (a.1 ≤ b.1)
    have hfilter : (l.mergeSort le).filter (fun p => IsArgument p.2 n) =
        l.filter (fun p => IsArgument p.2 n) := by
      -- pairs with one number are in order as they come, so sorting keeps them as they are
      have hone : (l.filter fun p => IsArgument p.2 n).Pairwise fun p q => le p q = true := by
        refine List.pairwise_of_forall_mem_list fun p hp q hq => ?_
        simp only [List.mem_filter, decide_eq_true_eq, ← argumentNumber_eq_ok_iff] at hp hq
        have hpn : p.1 = n := Except.ok.inj ((hnumbers p hp.1).symm.trans hp.2)
        have hqn : q.1 = n := Except.ok.inj ((hnumbers q hq.1).symm.trans hq.2)
        simp [le, hpn, hqn]
      have htrans : ∀ a b c, le a b → le b c → le a c := by
        simp only [le, decide_eq_true_eq]
        omega
      have htotal : ∀ a b, (le a b || le b a) = true := by
        simp only [le, Bool.or_eq_true, decide_eq_true_eq]
        omega
      have hsub := (List.sublist_mergeSort htrans htotal hone List.filter_sublist).filter
        fun p => decide (IsArgument p.2 n)
      rw [List.filter_filter] at hsub
      simp only [Bool.and_self] at hsub
      exact (hsub.eq_of_length ((List.mergeSort_perm l le).filter _).length_eq.symm).symm
    rw [← hkeys, List.filter_map, List.filter_map]
    exact congrArg (List.map Prod.snd) hfilter
  · rw [he] at h
    cases h

/-- The first key without a number decides how the ordering fails. -/
theorem argumentOrder_eq_error (hbefore : ∀ k ∈ before, ∃ n, IsArgument k n)
    (hkey : ∀ n, ¬ IsArgument key n) : argumentOrder (before ++ key :: after) =
      .error (if LooksLikeArgument key then .unreadableNumber else .badArgumentKey key) := by
  have hnumbers : ((before ++ key :: after).mapM fun k => do
      return (← argumentNumber k, k)) =
      .error (if LooksLikeArgument key then .unreadableNumber else .badArgumentKey key) := by
    induction before with
    | nil => rw [List.nil_append, List.mapM_cons, argumentNumber_eq_error hkey]; rfl
    | cons k before ih =>
      obtain ⟨n, hn⟩ := hbefore k List.mem_cons_self
      rw [List.cons_append, List.mapM_cons, argumentNumber_eq_ok_iff.mpr hn,
        ih fun k' hk' => hbefore k' (List.mem_cons_of_mem k hk')]
      rfl
  rw [argumentOrder, hnumbers]
  rfl

end Order

/-- For every operator expression that has not been evaluated yet and whose operator is registered,
whatever the keys of its children: if all keys have numbers, the operator is handed all children by
increasing number, those with one number in the order they came, and the store that it starts in
differs from the one before in nothing but the order remembered. Otherwise the first key without a
number decides: evaluation fails before the operator is tried, and nothing is remembered. A key that
is not the common start and digits is refused for its form, and digits that write no number that is
read, such as superscripts, are found unreadable. -/
theorem evaluate_by_keys [Host] {c : Context} {op : Operator} {s : Store} {e : NodeRef}
    (hdepth : c.depth < maxDepth) (hkind : (s.node e).kind = .op)
    (hop : c.registry.get? (s.node e).id = some op) (hnone : s.argOrder e = none) :
    ((∀ k ∈ (s.node e).children.keys, ∃ n, IsArgument k n) →
      ∃ sorted args, argumentOrder (s.node e).children.keys = .ok sorted ∧
        sorted.Perm (s.node e).children.keys ∧
        sorted.Pairwise (fun k k' => ∃ n n', IsArgument k n ∧ IsArgument k' n' ∧ n ≤ n') ∧
        (∀ n, sorted.filter (IsArgument · n) =
          (s.node e).children.keys.filter (IsArgument · n)) ∧
        List.Forall₂ (fun k r => (s.node e).children.get? k = some r) sorted args ∧
        evaluate c e s = (op.apply (evaluateWithin (maxDepth - c.deeper.depth).toNat) c.deeper args
          (s.setArgOrder e sorted)).mapFault Fault.orTooDeep) ∧
    ∀ before key after, (s.node e).children.keys = before ++ key :: after →
      (∀ k ∈ before, ∃ n, IsArgument k n) → (∀ n, ¬ IsArgument key n) →
      evaluate c e s = .failed
        (if LooksLikeArgument key then .unreadableNumber else .badArgumentKey key) (.ended s) := by
  have hrun : evaluate c e s = ((orderedArguments e s).bind
      (op.apply (evaluateWithin (maxDepth - c.deeper.depth).toNat) c.deeper)).mapFault
        Fault.orTooDeep := evaluate_op hdepth hkind hop
  constructor
  · intro hkeys
    obtain ⟨sorted, hsorted⟩ := exists_argumentOrder fun k hk =>
      (hkeys k hk).imp fun _ => argumentNumber_eq_ok_iff.mpr
    have hperm := argumentOrder_perm hsorted
    refine ⟨sorted, (s.node e).arguments sorted, hsorted, hperm, ?_, argumentOrder_stable hsorted,
      Node.forall₂_arguments _ fun k hk => hperm.mem_iff.mp hk, ?_⟩
    · refine (argumentOrder_pairwise hsorted).imp fun ⟨n, n', hn, hn', hle⟩ => ?_
      exact ⟨n, n', argumentNumber_eq_ok_iff.mp hn, argumentNumber_eq_ok_iff.mp hn', hle⟩
    · rw [hrun, orderedArguments_of_order hnone hsorted]
      rfl
  · intro before key after hkeys hbefore hkey
    have hfault : argumentOrder (s.node e).children.keys =
        .error (if LooksLikeArgument key then .unreadableNumber else .badArgumentKey key) := by
      rw [hkeys]
      exact argumentOrder_eq_error hbefore hkey
    rw [hrun, orderedArguments_of_fault hnone hfault]
    split <;> rfl

/-- Four texts and an expression that joins them, under keys in no order. The key of the last text
is to be chosen. -/
def Store.scattered (last : String) : Store :=
  let text (v : String) : Node := { Builtin.node "lit" Builtin.lit .lit with value := .str v }
  { Store.initial with
    nodes := Store.initial.nodes ++ #[text "a", text "b", text "c", text "d",
      { Builtin.node "concat" Builtin.op .op with
        children := .ofList [("arg10", ⟨8⟩), ("arg1", ⟨9⟩), ("arg٢", ⟨10⟩), (last, ⟨11⟩)] }]
    argOrders := Array.replicate 13 none }

/-- The context of the expression. -/
def scatteredContext : Context where
  current := ⟨12⟩
  root := ⟨12⟩
  registry := .standard
  bindings := none
  depth := 0
  lookup := none

theorem scattered_isArgument : IsArgument "arg10" 10 ∧ IsArgument "arg1" 1 ∧
    IsArgument "arg٢" 2 ∧ IsArgument "arg01" 1 := by decide +kernel

theorem scattered_order : argumentOrder ["arg10", "arg1", "arg٢", "arg01"] =
    .ok ["arg1", "arg01", "arg٢", "arg10"] := by
  obtain ⟨hten, hone, htwo, hzero⟩ := scattered_isArgument
  simp only [argumentOrder, List.mapM_cons, List.mapM_nil, argumentNumber_eq_ok_iff.mpr hten,
    argumentNumber_eq_ok_iff.mpr hone, argumentNumber_eq_ok_iff.mpr htwo,
    argumentNumber_eq_ok_iff.mpr hzero]
  cbv

/-- Under a second key of the first argument the last text comes right after the text under the
first one. A superscript and another word make evaluation fail, each in its way. -/
theorem scattered_by_keys :
    @evaluate Host.none scatteredContext ⟨12⟩ (Store.scattered "arg01") =
      (@Operator.apply Host.none (@evaluateWithin Host.none (maxDepth - 1).toNat)
        scatteredContext.deeper [⟨9⟩, ⟨11⟩, ⟨10⟩, ⟨8⟩] (.standard .concat)
        ((Store.scattered "arg01").setArgOrder ⟨12⟩ ["arg1", "arg01", "arg٢", "arg10"])).mapFault
          Fault.orTooDeep ∧
    @evaluate Host.none scatteredContext ⟨12⟩ (Store.scattered "arg²") =
      .failed .unreadableNumber (.ended (Store.scattered "arg²")) ∧
    @evaluate Host.none scatteredContext ⟨12⟩ (Store.scattered "argument") =
      .failed (.badArgumentKey "argument") (.ended (Store.scattered "argument")) := by
  obtain ⟨hten, hone, htwo, hzero⟩ := scattered_isArgument
  have hbefore : ∀ k ∈ ["arg10", "arg1", "arg٢"], ∃ n, IsArgument k n := by
    simp only [List.forall_mem_cons, List.not_mem_nil, IsEmpty.forall_iff, implies_true, and_true]
    exact ⟨⟨10, hten⟩, ⟨1, hone⟩, ⟨2, htwo⟩⟩
  have hsuper : argumentNumber "arg²" = .error .unreadableNumber := by decide +kernel
  have hword : argumentNumber "argument" = .error (.badArgumentKey "argument") := by decide +kernel
  refine ⟨?_, ?_, ?_⟩
  · have hall : ∀ k ∈ ["arg10", "arg1", "arg٢"] ++ ["arg01"], ∃ n, IsArgument k n :=
      List.forall_mem_append.mpr ⟨hbefore, by simpa using ⟨1, hzero⟩⟩
    obtain ⟨sorted, args, hsorted, -, -, -, hargs, heval⟩ := (@evaluate_by_keys Host.none
      scatteredContext (.standard .concat) (Store.scattered "arg01") ⟨12⟩ (by decide) rfl rfl
      rfl).1 hall
    obtain rfl := Except.ok.inj (scattered_order.symm.trans hsorted)
    obtain rfl : args = [⟨9⟩, ⟨11⟩, ⟨10⟩, ⟨8⟩] := by
      rcases hargs with _ | ⟨h₁, _ | ⟨h₂, _ | ⟨h₃, _ | ⟨h₄, _ | _⟩⟩⟩⟩
      rw [← Option.some.inj h₁, ← Option.some.inj h₂, ← Option.some.inj h₃, ← Option.some.inj h₄]
    exact heval
  · rw [(@evaluate_by_keys Host.none scatteredContext (.standard .concat) (Store.scattered "arg²")
      ⟨12⟩ (by decide) rfl rfl rfl).2 _ "arg²" [] rfl hbefore fun n hn => by
        cases hsuper.symm.trans (argumentNumber_eq_ok_iff.mpr hn)]
    rw [if_pos (by decide +kernel)]
  · rw [(@evaluate_by_keys Host.none scatteredContext (.standard .concat)
      (Store.scattered "argument") ⟨12⟩ (by decide) rfl rfl rfl).2 _ "argument" [] rfl hbefore
        fun n hn => by cases hword.symm.trans (argumentNumber_eq_ok_iff.mpr hn)]
    rw [if_neg (by decide +kernel)]

end LiveTree
