/-! Texts in parts: the parts between the places where a separator stands, and dotted paths. -/

namespace LiveTree.Text

/-- The parts between separators, at least one. -/
def split (separator : Char) : List Char → List (List Char)
  | [] => [[]]
  | c :: rest =>
    if c = separator then [] :: split separator rest
    else match split separator rest with
      | part :: parts => (c :: part) :: parts
      | [] => [[c]]

/-- The parts of a text between separators. -/
def parts (separator : Char) (s : String) : List String :=
  (split separator s.toList).map String.ofList

/-- The names of a dotted text. The empty text is one empty name. -/
def dotted (s : String) : List String := parts '.' s

/-- Joins names by dots. -/
def undotted (path : List String) : String := ".".intercalate path

end LiveTree.Text
