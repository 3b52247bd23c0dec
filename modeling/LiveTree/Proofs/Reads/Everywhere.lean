import LiveTree.Proofs.Reads.Subtrees
import LiveTree.Proofs.Reads.Verdicts
import LiveTree.Proofs.Text.Dotted

/-! Validation of a whole subtree. It goes through the subtree first, gathering the wrappers with
their paths, and then validates them one after another. What it reports of a path is what validating
the wrapper there reports by itself. The report is by dotted path, and two paths may come to the same
key; then the later one counts, but a failure is never lost altogether. -/

namespace LiveTree

variable {σ : Type}

/-! ### The report -/

section Report

variable {p q : Path} {found : Failures}

/-- The key under which what fails at a path is reported. -/
def reportKey (path : Path) : String :=
  if (Text.undotted path).isEmpty then rootKey else Text.undotted path

/-- The dotted path, with a key of its own for where the paths start. -/
def pathKey : Path → String
  | [] => rootKey
  | key :: rest => Text.undotted (key :: rest)

/-- Whether the keys of a path can be told from its dotted text, and the text is not the key for where
the paths start. -/
def ClearPath (path : Path) : Prop :=
  path ≠ [rootKey] ∧ ∀ key ∈ path, key ≠ "" ∧ '.' ∉ key.toList

namespace ClearPath

theorem undotted_ne (hp : ClearPath p) (hne : p ≠ []) : Text.undotted p ≠ "" := by
  intro hempty
  have hsingle : p = [""] := Text.undotted_inj (fun k hk => (hp.2 k hk).2) (by simp) hne (by simp)
    hempty
  exact (hp.2 "" (by rw [hsingle]; exact List.mem_cons_self)).1 rfl

theorem reportKey_eq (hp : ClearPath p) : reportKey p = pathKey p := by
  cases p with
  | nil => rfl
  | cons key rest =>
    exact if_neg (fun h => hp.undotted_ne (List.cons_ne_nil key rest) (String.isEmpty_iff.mp h))

theorem pathKey_inj (hp : ClearPath p) (hq : ClearPath q) (h : pathKey p = pathKey q) : p = q := by
  have hdots : ∀ {p}, ClearPath p → ∀ k ∈ p, '.' ∉ k.toList := fun hp k hk => (hp.2 k hk).2
  have hroot : ∀ {p : Path}, ClearPath p → p ≠ [] → Text.undotted p ≠ rootKey := fun hp hne h =>
    hp.1 (Text.undotted_inj (hdots hp) (by decide) hne (by decide) h)
  cases p with
  | nil =>
    cases q with
    | nil => rfl
    | cons => exact absurd h.symm (hroot hq (List.cons_ne_nil _ _))
  | cons =>
    cases q with
    | nil => exact absurd h (hroot hp (List.cons_ne_nil _ _))
    | cons =>
      exact Text.undotted_inj (hdots hp) (hdots hq) (List.cons_ne_nil _ _) (List.cons_ne_nil _ _) h

end ClearPath

/-- What is reported after certain things have been found at some paths. -/
def reported (m : Entries Failures) : List (Path × Failures) → Entries Failures
  | [] => m
  | (path, found) :: rest =>
    reported (if found.isEmpty then m else m.insert (reportKey path) found) rest

theorem isEmpty_reported {m : Entries Failures} {l : List (Path × Failures)} :
    (reported m l).isEmpty = true ↔ m.isEmpty = true ∧ ∀ e ∈ l, e.2.isEmpty = true := by
  induction l generalizing m with
  | nil => simp [reported]
  | cons e rest ih =>
    obtain ⟨path, found⟩ := e
    rw [reported, ih, List.forall_mem_cons]
    cases hfound : found.isEmpty with
    | true => simp
    | false =>
      have hinsert : (m.insert (reportKey path) found).isEmpty = false := by
        have hmem := Entries.get?_eq_some_iff.mp (m.get?_insert_self (reportKey path) found)
        rw [Entries.isEmpty]
        cases h : (m.insert (reportKey path) found).toList with
        | nil => simp [h] at hmem
        | cons => rfl
      simp [hinsert]

/-- If the keys of the paths are different, each failure is reported under its own. -/
theorem get?_reported {m : Entries Failures} {l : List (Path × Failures)}
    (hinj : ∀ a ∈ l, ∀ b ∈ l, reportKey a.1 = reportKey b.1 → a = b) {key : String} :
    (reported m l).get? key = some found ↔
      (∃ e ∈ l, key = reportKey e.1 ∧ e.2 = found ∧ found.isEmpty = false) ∨
        m.get? key = some found ∧ ∀ e ∈ l, key = reportKey e.1 → e.2.isEmpty = true := by
  induction l generalizing m with
  | nil => simp [reported]
  | cons e rest ih =>
    obtain ⟨path, failures⟩ := e
    have hrest : ∀ a ∈ rest, ∀ b ∈ rest, reportKey a.1 = reportKey b.1 → a = b := fun a ha b hb =>
      hinj a (List.mem_cons_of_mem _ ha) b (List.mem_cons_of_mem _ hb)
    have hself : ∀ b ∈ rest, reportKey path = reportKey b.1 → b = (path, failures) := fun b hb h =>
      (hinj (path, failures) List.mem_cons_self b (List.mem_cons_of_mem _ hb) h).symm
    rw [reported, ih hrest]
    simp only [List.mem_cons, exists_eq_or_imp, forall_eq_or_imp]
    by_cases hkey : key = reportKey path
    · subst hkey
      -- whatever else is reported under this key is the same
      have hlater : ∀ e ∈ rest, reportKey path = reportKey e.1 → e.2 = failures := fun e he h => by
        rw [hself e he h]
      cases hempty : failures.isEmpty with
      | true => grind
      | false =>
        simp only [Bool.false_eq_true, if_false, Entries.get?_insert_self]
        grind
    · cases hempty : failures.isEmpty with
      | true => simp [hkey]
      | false =>
        rw [if_neg Bool.false_ne_true, Entries.get?_insert_of_ne _ _ hkey]
        simp [hkey]

end Report


/-! ### Validating what a path leads to -/

section Validation

variable [Host] {x z : World σ} {w v : WrapperRef} {p : Path} {found : Failures}

/-- Whether validating what a path leads to finds certain failures. -/
def World.Finds (x : World σ) (w : WrapperRef) (path : Path) (found : Failures) : Prop :=
  ∃ y, TreeM.onPath TreeM.validate w path x = .ok (some found) y

theorem World.Finds.unique {found' : Failures} (h : x.Finds w p found) (h' : x.Finds w p found') :
    found' = found := by
  obtain ⟨_, h⟩ := h
  obtain ⟨_, h'⟩ := h'
  cases h.symm.trans h'
  rfl

variable (hx : x.Sound) (hw : x.Stands w)

include hx hw

section Along

variable (hb : Forest.Browsed w x.forest z.forest) (halong : z.forest.Along w p v)

include hb halong

/-- Validating a wrapper further down, after some browsing, finds what is found at its seat from the
start. -/
theorem validate_eq_ok_iff : (∃ y, TreeM.validate v z = .ok found y) ↔
    ∃ t, (z.forest.seat v).failures x.forest.store = .done found t := by
  have hseat := hw.seat_grounded_along hb halong hx
  have heval : TreeM.validate v z = TreeM.eval (z.forest.seat v).failures z :=
    TreeM.Means.validate (hw.live_along hb halong) z.forest.store
  have htracks : ∀ u, x.forest.store.Later u → (Correspondence.shifted x.forest.store u).Tracks
      x.forest.store (fun _ a b => b = a) (z.forest.seat v).failures (z.forest.seat v).failures :=
    fun u h => (hseat.toKnown u).failures (shifted_fit hx.wellFormed h).toLawful
  rw [heval]
  constructor
  · rintro ⟨y, hy⟩
    obtain ⟨t, ht, -⟩ := hseat.standard.failures.done_of_eval hy
    exact EvalM.done_later hx.wellFormed htracks hb.later ht (.refl _)
  · rintro ⟨t, ht⟩
    obtain ⟨t', ht'⟩ := EvalM.done_later hx.wellFormed htracks (.refl _) ht hb.later
    exact ⟨_, TreeM.eval_done ht'⟩

theorem validate_browses {y : World σ} (h : TreeM.validate v z = .ok found y) :
    Forest.Browsed w z.forest y.forest := by
  have heval : TreeM.validate v z = TreeM.eval (z.forest.seat v).failures z :=
    TreeM.Means.validate (hw.live_along hb halong) z.forest.store
  rw [heval] at h
  obtain ⟨t, -, rfl, hlater, hnodes⟩ :=
    (hw.seat_grounded_along hb halong hx).standard.failures.done_of_eval h
  exact (Forest.Roamed.of_store z.forest w hlater hnodes).browsed hb.arises

end Along

theorem finds_iff {q : Seat}
    (hq : Seat.along x.forest.store p (x.forest.seat w) (x.forest.own w) = some q) :
    x.Finds w p found ↔ ∃ t, q.failures x.forest.store = .done found t := by
  obtain ⟨c, z, hb, -, halong, hc, hat⟩ := (hw.seated hx).onPath hq
  rw [← hc.seat, ← validate_eq_ok_iff hx hw (hb.browsed hx.arises) halong, World.Finds]
  exact exists_congr fun y => hat TreeM.validate found y

/-- Validating a wrapper further down, after some browsing, finds what validating at its path finds
from the start. -/
theorem validate_iff_finds (hb : Forest.Browsed w x.forest z.forest)
    (halong : z.forest.Along w p v) :
    (∃ y, TreeM.validate v z = .ok found y) ↔ x.Finds w p found := by
  rw [validate_eq_ok_iff hx hw hb halong,
    finds_iff hx hw (hb.seat_along hx.arises.kept.toOrdered hw.live halong)]

/-- Validating gathered wrappers one after another reports what is found at their paths from the
start. -/
theorem validateEach_finds {m m' : Entries Failures} {l : List (WrapperRef × Path)} {y : World σ}
    (hb : Forest.Browsed w x.forest z.forest) (hl : ∀ e ∈ l, z.forest.Along w e.2 e.1)
    (h : TreeM.validateEach m l z = .ok m' y) :
    ∃ found : List (Path × Failures), found.map Prod.fst = l.map Prod.snd ∧
      (∀ e ∈ found, x.Finds w e.1 e.2) ∧ m' = reported m found := by
  induction l generalizing z m with
  | nil =>
    cases h
    exact ⟨[], rfl, nofun, rfl⟩
  | cons e rest ih =>
    obtain ⟨v, p⟩ := e
    obtain ⟨halong, hrest⟩ := List.forall_mem_cons.mp hl
    cases hrun : TreeM.validate v z with
    | error e z' =>
      rw [TreeM.validateEach, bind_of_error hrun] at h
      cases h
    | ok found z' =>
      rw [TreeM.validateEach, bind_of_ok hrun] at h
      have hb' := validate_browses hx hw hb halong hrun
      have hnext : ∀ m, TreeM.validateEach m rest z' = .ok m' y → _ := fun m =>
        ih (m := m) (hb.trans hb') fun e he => hb'.along (hrest e he)
      have hfirst := (validate_iff_finds hx hw hb halong).mp ⟨z', hrun⟩
      obtain ⟨l', hpaths, hfinds, hm⟩ := hnext (if found.isEmpty then m else m.insert (reportKey p) found)
        (by split at h <;> rename_i he <;> simp only [he] <;> exact h)
      refine ⟨(p, found) :: l', congrArg (p :: ·) hpaths, List.forall_mem_cons.mpr ⟨hfirst, hfinds⟩, ?_⟩
      exact hm

/-- It succeeds if all validations do. -/
theorem validateEach_ok {l : List (WrapperRef × Path)}
    (hb : Forest.Browsed w x.forest z.forest) (hl : ∀ e ∈ l, z.forest.Along w e.2 e.1)
    (h : ∀ e ∈ l, ∃ found, x.Finds w e.2 found) (m : Entries Failures) :
    ∃ m' y, TreeM.validateEach m l z = .ok m' y := by
  induction l generalizing z m with
  | nil => exact ⟨m, z, rfl⟩
  | cons e rest ih =>
    obtain ⟨v, p⟩ := e
    obtain ⟨halong, hrest⟩ := List.forall_mem_cons.mp hl
    obtain ⟨⟨found, hfirst⟩, hlast⟩ := List.forall_mem_cons.mp h
    obtain ⟨z', hrun⟩ := (validate_iff_finds hx hw hb halong).mpr hfirst
    have hb' := validate_browses hx hw hb halong hrun
    have hnext := ih (hb.trans hb') (fun e he => hb'.along (hrest e he)) hlast
    rw [TreeM.validateEach, bind_of_ok hrun]
    dsimp only
    split
    · exact hnext _
    · exact hnext _

end Validation

/-! ### The subtree -/

/-- Whether keys lead from a wrapper's node down to a node. -/
def World.HasPath (x : World σ) (w : WrapperRef) (path : Path) : Prop :=
  (x.forest.store.follow (x.forest.wrapper w).node path).isSome

section Subtree

variable [Host] {x : World σ} {w : WrapperRef}

/-- Validating a subtree is validating what is gathered in it, which are all paths. -/
theorem validateDeep_eq (hx : x.Sound) (hw : x.Stands w) :
    ∃ l z, TreeM.validateDeep w x = TreeM.validateEach ∅ l z ∧ Forest.Browsed w x.forest z.forest ∧
      (∀ e ∈ l, z.forest.Along w e.2 e.1) ∧ ∀ p, x.HasPath w p ↔ p ∈ l.map Prod.snd := by
  have hend := (hw.endsWithin hx.wellFormed).mono (Nat.add_le_add_left (by decide :
    1 ≤ TreeM.visitMargin) _)
  obtain ⟨l, z, hentries, hgathers⟩ := TreeM.entries_gathers hx.arises.placed hw.made
    (Store.endsWithin_offspring hend)
  refine ⟨l, z, ?_, hgathers.roamed.browsed hx.arises, fun e he => ?_, fun p => ?_⟩
  · exact (bind_of_ok (TreeM.checkAlive_of_live hw.live) _).trans (bind_of_ok hentries _)
  · obtain ⟨p, hp, halong⟩ := hgathers.along e he
    rwa [hp]
  · rw [hgathers.paths, World.HasPath, ← Store.mem_pathsTo (Store.endsWithin_offspring hend)]
    simp

/-- The report is of what is found at each path, and something is found at each. -/
theorem validateDeep_report (hx : x.Sound) (hw : x.Stands w) {m : Entries Failures} {z : World σ}
    (h : TreeM.validateDeep w x = .ok m z) :
    ∃ found : List (Path × Failures),
      (∀ p failures, (p, failures) ∈ found ↔ x.HasPath w p ∧ x.Finds w p failures) ∧
        (∀ p, x.HasPath w p → ∃ failures, (p, failures) ∈ found) ∧ m = reported ∅ found := by
  obtain ⟨l, z₀, hrun, hb, halong, hpaths⟩ := validateDeep_eq hx hw
  rw [hrun] at h
  obtain ⟨found, hmap, hfinds, rfl⟩ := validateEach_finds hx hw hb halong h
  have hall : ∀ p, x.HasPath w p → ∃ failures, (p, failures) ∈ found := by
    intro p hp
    rw [hpaths, ← hmap] at hp
    obtain ⟨⟨_, failures⟩, he, rfl⟩ := List.mem_map.mp hp
    exact ⟨failures, he⟩
  refine ⟨found, fun p failures => ⟨fun he => ⟨?_, hfinds _ he⟩, fun ⟨hp, h⟩ => ?_⟩, hall, rfl⟩
  · rw [hpaths, ← hmap]
    exact List.mem_map.mpr ⟨_, he, rfl⟩
  · obtain ⟨failures', he⟩ := hall p hp
    have hsame : failures' = failures := h.unique (hfinds _ he)
    rwa [hsame] at he

/-- A whole subtree is valid if and only if each node in it is, validated by itself at its path,
whatever the keys are; and there is such a result if and only if each of these validations succeeds.
If no key is empty or has a dot in it, and no child of the wrapper itself has the key that stands for
the wrapper, then different paths have different dotted texts, and what is reported is just what
fails, path by path, with the failures that are found there. -/
theorem validateDeep_finds (hx : x.Sound) (hw : x.Stands w) :
    ((∃ m z, TreeM.validateDeep w x = .ok m z) ↔
      ∀ p, x.HasPath w p → ∃ found, x.Finds w p found) ∧
    ∀ m z, TreeM.validateDeep w x = .ok m z →
      (m.isEmpty = true ↔ ∀ p, x.HasPath w p → ∃ found, x.Finds w p found ∧ found.isEmpty = true) ∧
      ((∀ p, x.HasPath w p → ClearPath p) →
        (∀ p q, x.HasPath w p → x.HasPath w q → pathKey p = pathKey q → p = q) ∧
        ∀ key found, m.get? key = some found ↔
          ∃ p, x.HasPath w p ∧ key = pathKey p ∧ x.Finds w p found ∧ found.isEmpty = false) := by
  refine ⟨⟨fun ⟨m, z, h⟩ p hp => ?_, fun h => ?_⟩, fun m z h => ?_⟩
  · obtain ⟨found, hmem, hall, -⟩ := validateDeep_report hx hw h
    obtain ⟨failures, he⟩ := hall p hp
    exact ⟨failures, ((hmem p failures).mp he).2⟩
  · obtain ⟨l, z₀, hrun, hb, halong, hpaths⟩ := validateDeep_eq hx hw
    rw [hrun]
    exact validateEach_ok hx hw hb halong
      (fun e he => h e.2 ((hpaths e.2).mpr (List.mem_map_of_mem he))) ∅
  obtain ⟨found, hmem, hall, rfl⟩ := validateDeep_report hx hw h
  refine ⟨?_, fun hclear => ?_⟩
  · rw [isEmpty_reported]
    constructor
    · rintro ⟨-, hempty⟩ p hp
      obtain ⟨failures, he⟩ := hall p hp
      exact ⟨failures, ((hmem p failures).mp he).2, hempty _ he⟩
    · refine fun hvalid => ⟨rfl, fun e he => ?_⟩
      obtain ⟨hp, hfinds⟩ := (hmem e.1 e.2).mp he
      obtain ⟨failures, hfinds', hempty⟩ := hvalid e.1 hp
      rwa [hfinds'.unique hfinds]
  · have hinj : ∀ p q, x.HasPath w p → x.HasPath w q → pathKey p = pathKey q → p = q :=
      fun p q hp hq => (hclear p hp).pathKey_inj (hclear q hq)
    refine ⟨hinj, fun key failures => ?_⟩
    have hkeys : ∀ a ∈ found, ∀ b ∈ found, reportKey a.1 = reportKey b.1 → a = b := by
      rintro ⟨p, a⟩ ha ⟨q, b⟩ hb hkey
      obtain ⟨hp, hpa⟩ := (hmem p a).mp ha
      obtain ⟨hq, hqb⟩ := (hmem q b).mp hb
      rw [(hclear p hp).reportKey_eq, (hclear q hq).reportKey_eq] at hkey
      obtain rfl := hinj p q hp hq hkey
      rw [hpa.unique hqb]
    rw [get?_reported hkeys]
    constructor
    · rintro (⟨⟨p, _⟩, he, hkey, rfl, hfails⟩ | ⟨hnone, -⟩)
      · obtain ⟨hp, hfinds⟩ := (hmem p _).mp he
        exact ⟨p, hp, hkey.trans (hclear p hp).reportKey_eq, hfinds, hfails⟩
      · cases hnone
    · rintro ⟨p, hp, hkey, hfinds, hfails⟩
      exact .inl ⟨(p, failures), (hmem p failures).mpr ⟨hp, hfinds⟩,
        hkey.trans (hclear p hp).reportKey_eq.symm, rfl, hfails⟩

end Subtree

theorem invoiceWorld_sound (r : NodeRef) : (invoiceWorld r).Sound :=
  .start Store.invoice_wellFormed r ()

theorem invoiceWorld_stands {r : NodeRef} (hr : Store.invoice.Has (.node r)) :
    (invoiceWorld r).Stands ⟨0⟩ := by
  refine ⟨Nat.zero_lt_one, rfl, fun a ha => ?_⟩
  obtain rfl := List.mem_singleton.mp ha
  exact Store.invoice_grounded hr

theorem Store.invoice_follow {p : Path} (hp : (invoice.follow ⟨13⟩ p).isSome) :
    p = [] ∨ p = ["amount"] := by
  cases p with
  | nil => exact .inl rfl
  | cons key rest =>
    have hchildren : ∀ r, (invoice.node ⟨13⟩).children.get? key = some r →
        key = "amount" ∧ r = ⟨12⟩ := fun r hr => by
      simpa [Prod.ext_iff] using (List.mem_singleton.mp (Entries.get?_eq_some_iff.mp hr) :
        (key, r) = ("amount", ⟨12⟩))
    rw [follow] at hp
    cases hr : (invoice.node ⟨13⟩).children.get? key with
    | none =>
      rw [hr] at hp
      cases hp
    | some r =>
      obtain ⟨rfl, rfl⟩ := hchildren r hr
      cases rest with
      | nil => exact .inr rfl
      | cons => cases hp

theorem invoice_finds : ∃ m z, @TreeM.validateDeep Unit Host.none ⟨0⟩ (invoiceWorld ⟨13⟩) = .ok m z ∧
    m.get? "amount" = some (.ofList [("some", "Nothing yet")]) := by
  let host := Host.none
  let x := invoiceWorld ⟨13⟩
  have hx := invoiceWorld_sound ⟨13⟩
  have hw := invoiceWorld_stands (r := ⟨13⟩) (by decide)
  have hroot : x.Finds ⟨0⟩ [] ∅ := ⟨_, rfl⟩
  have hamount : x.Finds ⟨0⟩ ["amount"] (.ofList [("some", "Nothing yet")]) :=
    (finds_iff hx hw rfl).mpr ⟨_, rfl⟩
  have hclear : ∀ p, x.HasPath ⟨0⟩ p → ClearPath p := by
    intro p hp
    rcases Store.invoice_follow hp with rfl | rfl
    exacts [⟨nofun, nofun⟩, ⟨by decide, by decide⟩]
  obtain ⟨hsucceeds, hall⟩ := validateDeep_finds hx hw
  obtain ⟨m, z, h⟩ := hsucceeds.mpr fun p hp => by
    rcases Store.invoice_follow hp with rfl | rfl
    exacts [⟨_, hroot⟩, ⟨_, hamount⟩]
  exact ⟨m, z, h, (((hall m z h).2 hclear).2 "amount" _).mpr ⟨["amount"], rfl, rfl, hamount, rfl⟩⟩

end LiveTree
