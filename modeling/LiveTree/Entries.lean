/-! Maps from names to values that remember the order in which the names first came. A name
occurs once; writing an existing name keeps its place, and removing it frees the place. -/

namespace LiveTree

/-- A map from names to values in insertion order. -/
structure Entries (α : Type) where
  toList : List (String × α)
  nodup : (toList.map Prod.fst).Nodup

namespace Entries

variable {α β : Type}

/-- Replaces the value of the first pair named `k`, or appends the pair. -/
def put (k : String) (v : α) : List (String × α) → List (String × α)
  | [] => [(k, v)]
  | (k', v') :: rest => if k' = k then (k, v) :: rest else (k', v') :: put k v rest

/-- Drops the first pair named `k`. -/
def drop (k : String) : List (String × α) → List (String × α)
  | [] => []
  | (k', v') :: rest => if k' = k then rest else (k', v') :: drop k rest

/-- The value of the first pair named `k`. -/
def find (k : String) : List (String × α) → Option α
  | [] => none
  | (k', v') :: rest => if k' = k then some v' else find k rest

theorem mem_keys_put {k a : String} {v : α} {l : List (String × α)} :
    a ∈ (put k v l).map Prod.fst ↔ a = k ∨ a ∈ l.map Prod.fst := by
  induction l with
  | nil => simp [put]
  | cons p rest ih =>
    obtain ⟨k', v'⟩ := p
    by_cases h : k' = k
    · subst h; simp [put]
    · simp only [put, if_neg h, List.map_cons, List.mem_cons, ih]
      constructor
      · rintro (h | h | h) <;> simp [h]
      · rintro (h | h | h) <;> simp [h]

theorem nodup_put {k : String} {v : α} {l : List (String × α)} (h : (l.map Prod.fst).Nodup) :
    ((put k v l).map Prod.fst).Nodup := by
  induction l with
  | nil => simp [put]
  | cons p rest ih =>
    obtain ⟨k', v'⟩ := p
    simp only [List.map_cons, List.nodup_cons] at h
    by_cases hk : k' = k
    · subst hk; simpa [put] using h
    · simp only [put, if_neg hk, List.map_cons, List.nodup_cons, mem_keys_put]
      exact ⟨fun h' => h'.elim hk h.1, ih h.2⟩

theorem drop_sublist (k : String) (l : List (String × α)) : (drop k l).Sublist l := by
  induction l with
  | nil => exact List.Sublist.slnil
  | cons p rest ih =>
    obtain ⟨k', v'⟩ := p
    by_cases hk : k' = k
    · simp [drop, hk]
    · simpa [drop, hk] using ih

theorem nodup_drop {k : String} {l : List (String × α)} (h : (l.map Prod.fst).Nodup) :
    ((drop k l).map Prod.fst).Nodup :=
  h.sublist ((drop_sublist k l).map _)

/-- The map without entries. -/
def empty : Entries α := ⟨[], by simp⟩

instance : Inhabited (Entries α) := ⟨empty⟩

instance : EmptyCollection (Entries α) := ⟨empty⟩

/-- The value stored under a name. -/
def get? (m : Entries α) (k : String) : Option α := find k m.toList

/-- Whether a name has an entry. -/
def contains (m : Entries α) (k : String) : Bool := (m.get? k).isSome

/-- Stores a value under a name, in the name's place or else at the end. -/
def insert (m : Entries α) (k : String) (v : α) : Entries α := ⟨put k v m.toList, nodup_put m.nodup⟩

/-- Removes a name. -/
def erase (m : Entries α) (k : String) : Entries α := ⟨drop k m.toList, nodup_drop m.nodup⟩

/-- The names, in order. -/
def keys (m : Entries α) : List String := m.toList.map Prod.fst

/-- The values, in order. -/
def values (m : Entries α) : List α := m.toList.map Prod.snd

/-- The number of entries. -/
def size (m : Entries α) : Nat := m.toList.length

/-- Whether there is no entry. -/
def isEmpty (m : Entries α) : Bool := m.toList.isEmpty

/-- Writes the pairs of a list one after another. -/
def insertAll (m : Entries α) (l : List (String × α)) : Entries α :=
  l.foldl (fun m p => m.insert p.1 p.2) m

/-- The map that a list of pairs writes: a repeated name keeps its first place and its last
value. -/
def ofList (l : List (String × α)) : Entries α := empty.insertAll l

/-- Changes every value. -/
def map (f : α → β) (m : Entries α) : Entries β :=
  ⟨m.toList.map fun p => (p.1, f p.2), by simpa [Function.comp_def] using m.nodup⟩

@[simp] theorem find_put_self (k : String) (v : α) (l : List (String × α)) :
    find k (put k v l) = some v := by
  induction l with
  | nil => simp [put, find]
  | cons p rest ih =>
    obtain ⟨k', v'⟩ := p
    by_cases h : k' = k <;> simp [put, find, h, ih]

theorem find_put_of_ne {k a : String} (v : α) (l : List (String × α)) (h : a ≠ k) :
    find a (put k v l) = find a l := by
  induction l with
  | nil => simp [put, find, Ne.symm h]
  | cons p rest ih =>
    obtain ⟨k', v'⟩ := p
    by_cases hk : k' = k
    · subst hk; simp [put, find, Ne.symm h]
    · simp [put, find, hk, ih]

@[simp] theorem get?_insert_self (m : Entries α) (k : String) (v : α) :
    (m.insert k v).get? k = some v := find_put_self k v m.toList

theorem get?_insert_of_ne (m : Entries α) {k a : String} (v : α) (h : a ≠ k) :
    (m.insert k v).get? a = m.get? a := find_put_of_ne v m.toList h

@[simp] theorem get?_empty (k : String) : (empty : Entries α).get? k = none := rfl

theorem find_eq_none {k : String} {l : List (String × α)} (h : k ∉ l.map Prod.fst) :
    find k l = none := by
  induction l with
  | nil => rfl
  | cons p rest ih =>
    simp only [List.map_cons, List.mem_cons, not_or] at h
    rw [find, if_neg (Ne.symm h.1), ih h.2]

theorem find_drop_self {k : String} {l : List (String × α)} (h : (l.map Prod.fst).Nodup) :
    find k (drop k l) = none := by
  induction l with
  | nil => rfl
  | cons p rest ih =>
    obtain ⟨k', v'⟩ := p
    simp only [List.map_cons, List.nodup_cons] at h
    by_cases hk : k' = k
    · subst hk
      simpa [drop] using find_eq_none h.1
    · simpa [drop, find, hk] using ih h.2

theorem find_drop_of_ne {k a : String} (l : List (String × α)) (h : a ≠ k) :
    find a (drop k l) = find a l := by
  induction l with
  | nil => rfl
  | cons p rest ih =>
    obtain ⟨k', v'⟩ := p
    by_cases hk : k' = k
    · subst hk; simp [drop, find, Ne.symm h]
    · simp [drop, find, hk, ih]

@[simp] theorem get?_erase_self (m : Entries α) (k : String) : (m.erase k).get? k = none :=
  find_drop_self m.nodup

theorem get?_erase_of_ne (m : Entries α) {k a : String} (h : a ≠ k) :
    (m.erase k).get? a = m.get? a := find_drop_of_ne m.toList h

theorem get?_erase_eq_some_iff {m : Entries α} {k a : String} {v : α} :
    (m.erase k).get? a = some v ↔ a ≠ k ∧ m.get? a = some v := by
  by_cases h : a = k
  · subst h; simp
  · simp [get?_erase_of_ne m h, h]

theorem find_eq_some_of_mem {k : String} {v : α} {l : List (String × α)}
    (h : (l.map Prod.fst).Nodup) (hm : (k, v) ∈ l) : find k l = some v := by
  induction l with
  | nil => cases hm
  | cons p rest ih =>
    obtain ⟨k', v'⟩ := p
    simp only [List.map_cons, List.nodup_cons] at h
    rcases List.mem_cons.mp hm with e | hm
    · cases e; simp [find]
    · have hk : k' ≠ k := fun e => h.1 (List.mem_map.mpr ⟨(k, v), hm, e.symm⟩)
      simp [find, hk, ih h.2 hm]

theorem mem_of_find_eq_some {k : String} {v : α} {l : List (String × α)}
    (h : find k l = some v) : (k, v) ∈ l := by
  induction l with
  | nil => cases h
  | cons p rest ih =>
    obtain ⟨k', v'⟩ := p
    by_cases hk : k' = k
    · subst hk; simp_all [find]
    · simp only [find, if_neg hk] at h
      exact List.mem_cons_of_mem _ (ih h)

/-- A map reads a value under a name exactly when it holds the pair. -/
theorem find_append (k : String) (l l' : List (String × α)) :
    find k (l ++ l') = (find k l).or (find k l') := by
  induction l with
  | nil => simp [find]
  | cons p rest ih =>
    obtain ⟨k', v⟩ := p
    by_cases h : k' = k <;> simp [find, h, ih]

theorem get?_eq_some_iff {m : Entries α} {k : String} {v : α} :
    m.get? k = some v ↔ (k, v) ∈ m.toList :=
  ⟨mem_of_find_eq_some, find_eq_some_of_mem m.nodup⟩

theorem mem_values_of_get? {m : Entries α} {k : String} {v : α} (h : m.get? k = some v) :
    v ∈ m.values := List.mem_map.mpr ⟨(k, v), get?_eq_some_iff.mp h, rfl⟩

/-- A map holds a value exactly when it reads it under some name. -/
theorem mem_values_iff {m : Entries α} {v : α} : v ∈ m.values ↔ ∃ k, m.get? k = some v := by
  refine ⟨fun h => ?_, fun ⟨_, h⟩ => mem_values_of_get? h⟩
  obtain ⟨⟨k, _⟩, hp, rfl⟩ := List.mem_map.mp h
  exact ⟨k, get?_eq_some_iff.mpr hp⟩

theorem isEmpty_of_get? {m : Entries α} {k : String} {v : α} (h : m.get? k = some v) :
    m.isEmpty = false :=
  List.isEmpty_eq_false_iff_exists_mem.mpr ⟨_, get?_eq_some_iff.mp h⟩

theorem contains_of_mem_keys {m : Entries α} {k : String} (h : k ∈ m.keys) :
    m.contains k = true := by
  obtain ⟨⟨k', v⟩, hp, rfl⟩ := List.mem_map.mp h
  simp [contains, get?_eq_some_iff.mpr hp]

@[simp] theorem keys_map (f : α → β) (m : Entries α) : (m.map f).keys = m.keys := by
  simp [keys, map, Function.comp_def]

@[simp] theorem values_map (f : α → β) (m : Entries α) : (m.map f).values = m.values.map f := by
  simp [values, map, Function.comp_def]

theorem get?_map (f : α → β) (m : Entries α) (k : String) : (m.map f).get? k = (m.get? k).map f := by
  have hfind : ∀ l : List (String × α),
      find k (l.map fun p => (p.1, f p.2)) = (find k l).map f := by
    intro l
    induction l with
    | nil => rfl
    | cons p rest ih =>
      rw [List.map_cons, find, find]
      split
      · rfl
      · exact ih
  exact hfind m.toList

/-- A map is its names and its values. -/
theorem eq_of_keys_of_values {m m' : Entries α} (hkeys : m'.keys = m.keys)
    (hvalues : m'.values = m.values) : m' = m := by
  have hzip : ∀ m : Entries α, m.toList = m.keys.zip m.values := fun m => by
    rw [keys, values, ← List.unzip_fst, ← List.unzip_snd, List.zip_unzip]
  have hlist : m'.toList = m.toList := by rw [hzip m', hzip m, hkeys, hvalues]
  obtain ⟨l, _⟩ := m
  obtain ⟨l', _⟩ := m'
  cases hlist
  rfl

theorem put_of_not_mem {k : String} {v : α} {l : List (String × α)} (h : k ∉ l.map Prod.fst) :
    put k v l = l ++ [(k, v)] := by
  induction l with
  | nil => rfl
  | cons p rest ih =>
    obtain ⟨k', v'⟩ := p
    simp only [List.map_cons, List.mem_cons, not_or] at h
    simp [put, Ne.symm h.1, ih h.2]

theorem mem_put {k : String} {v : α} {l : List (String × α)} {p : String × α}
    (h : p ∈ put k v l) : p = (k, v) ∨ p ∈ l := by
  induction l with
  | nil => exact .inl (by simpa [put] using h)
  | cons q rest ih =>
    obtain ⟨k', v'⟩ := q
    by_cases hk : k' = k
    · simp only [put, if_pos hk, List.mem_cons] at h
      exact h.imp id fun h => List.mem_cons_of_mem _ h
    · simp only [put, if_neg hk, List.mem_cons] at h
      rcases h with rfl | h
      · exact .inr List.mem_cons_self
      · exact (ih h).imp id fun h => List.mem_cons_of_mem _ h

theorem mem_values_insert {m : Entries α} {k : String} {v a : α} (h : a ∈ (m.insert k v).values) :
    a = v ∨ a ∈ m.values := by
  obtain ⟨p, hp, rfl⟩ := List.mem_map.mp h
  exact (mem_put hp).imp (congrArg Prod.snd) fun hp => List.mem_map_of_mem hp

theorem mem_values_insertAll {m : Entries α} {l : List (String × α)} {a : α}
    (h : a ∈ (m.insertAll l).values) : a ∈ m.values ∨ a ∈ l.map Prod.snd := by
  induction l generalizing m with
  | nil => exact .inl h
  | cons p rest ih =>
    rcases ih (m := m.insert p.1 p.2) h with h | h
    · rcases mem_values_insert h with rfl | h
      · exact .inr List.mem_cons_self
      · exact .inl h
    · exact .inr (List.mem_cons_of_mem _ h)

theorem mem_values_ofList {l : List (String × α)} {a : α} (h : a ∈ (ofList l).values) :
    a ∈ l.map Prod.snd :=
  (mem_values_insertAll h).resolve_left (by simp [empty, values])

theorem mem_values_erase {m : Entries α} {k : String} {a : α} (h : a ∈ (m.erase k).values) :
    a ∈ m.values := ((drop_sublist k m.toList).map Prod.snd).subset h

theorem toList_insertAll {m : Entries α} {l : List (String × α)}
    (h : ((m.toList ++ l).map Prod.fst).Nodup) : (m.insertAll l).toList = m.toList ++ l := by
  induction l generalizing m with
  | nil => simp [insertAll]
  | cons p rest ih =>
    have hp : p.1 ∉ m.toList.map Prod.fst := by
      simp only [List.map_append, List.map_cons] at h
      exact fun hm => (List.nodup_append.mp h).2.2 _ hm _ (List.mem_cons_self) rfl
    have hput : (m.insert p.1 p.2).toList = m.toList ++ [p] := put_of_not_mem hp
    have := ih (m := m.insert p.1 p.2) (by simpa [hput] using h)
    simpa [insertAll, hput] using this

/-- Pairs with distinct names are the map that they write. -/
theorem toList_ofList {l : List (String × α)} (h : (l.map Prod.fst).Nodup) :
    (ofList l).toList = l := toList_insertAll h

/-- A map is written by its own pairs. -/
theorem ofList_toList (m : Entries α) : ofList m.toList = m :=
  eq_of_keys_of_values (congrArg (List.map Prod.fst) (toList_ofList m.nodup))
    (congrArg (List.map Prod.snd) (toList_ofList m.nodup))

end Entries

end LiveTree
