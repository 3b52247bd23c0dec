import LiveTree.Text.Path
import Mathlib.Data.List.Basic

/-! Dotted texts. As long as no name holds a dot, the names can be read back from the dotted text,
and one path leads to another, segment by segment, just if its text followed by a dot starts the
text of the other. -/

namespace LiveTree.Text

variable {p q : List String}

theorem split_eq_splitOn (separator : Char) (cs : List Char) :
    split separator cs = cs.splitOn separator := by
  induction cs with
  | nil => rfl
  | cons c rest ih =>
    rw [split, List.splitOn_cons_eq_if_modifyHead, ih]
    by_cases h : c = separator
    · rw [if_pos h, if_pos (by simpa using h)]
    · rw [if_neg h, if_neg (by simpa using h)]
      obtain ⟨part, parts, hparts⟩ :=
        List.exists_cons_of_ne_nil (List.splitOn_ne_nil separator rest)
      rw [hparts]
      rfl

theorem splitOn_undotted (hp : ∀ k ∈ p, '.' ∉ k.toList) (hne : p ≠ []) :
    (undotted p).toList.splitOn '.' = p.map String.toList := by
  rw [undotted, String.toList_intercalate]
  exact List.splitOn_intercalate '.' (by simpa using hp) (by simpa using hne)

/-- Names without dots are read back from the dotted text. -/
theorem dotted_undotted (hp : ∀ k ∈ p, '.' ∉ k.toList) (hne : p ≠ []) :
    dotted (undotted p) = p := by
  rw [dotted, parts, split_eq_splitOn, splitOn_undotted hp hne, List.map_map]
  exact (List.map_congr_left fun k _ => String.ofList_toList).trans (List.map_id p)

/-- Names without dots can be told from the dotted text. -/
theorem undotted_inj (hp : ∀ k ∈ p, '.' ∉ k.toList) (hq : ∀ k ∈ q, '.' ∉ k.toList) (hp' : p ≠ [])
    (hq' : q ≠ []) (h : undotted p = undotted q) : p = q := by
  rw [← dotted_undotted hp hp', h, dotted_undotted hq hq']

theorem undotted_append (hp : p ≠ []) (hq : q ≠ []) :
    undotted (p ++ q) = undotted p ++ "." ++ undotted q :=
  String.intercalate_append_of_ne_nil hp hq

/-- The text of a path goes on after the text of another, with a dot in between, just if the path
goes on after the other. -/
theorem undotted_below_iff (hp : ∀ k ∈ p, '.' ∉ k.toList) (hq : ∀ k ∈ q, '.' ∉ k.toList)
    (hp' : p ≠ []) :
    (undotted p).toList ++ ['.'] <+: (undotted q).toList ↔ ∃ rest, rest ≠ [] ∧ q = p ++ rest := by
  constructor
  · rintro ⟨tail, htail⟩
    have hq' : q ≠ [] := by
      rintro rfl
      simp [undotted] at htail
    have hsplit : p.map String.toList ++ tail.splitOn '.' = q.map String.toList := by
      rw [← splitOn_undotted hp hp', ← splitOn_undotted hq hq', ← htail, List.append_assoc]
      exact (List.splitOn_append_cons_self _ _).symm
    obtain ⟨first, rest, rfl, hfirst, hrest⟩ := List.map_eq_append_iff.mp hsplit.symm
    rw [List.map_injective_iff.mpr (fun _ _ => String.toList_inj.mp) hfirst]
    refine ⟨rest, ?_, rfl⟩
    rintro rfl
    exact List.splitOn_ne_nil '.' tail hrest.symm
  · rintro ⟨rest, hrest, rfl⟩
    rw [undotted_append hp' hrest, String.toList_append, String.toList_append]
    exact List.prefix_append _ _

end LiveTree.Text
