import LiveTree.Text.Path

/-! Texts as a terminal shows them: in lines, without the characters that would move the cursor,
and with tabs filled up with blanks. -/

namespace LiveTree.Text

/-- The distance between tab stops. -/
def tabWidth : Nat := 8

/-- Whether a character moves the cursor: a bell, a step back, a vertical tab, a form feed or a
carriage return. -/
def isCursorMove (c : Char) : Bool := [7, 8, 11, 12, 13].contains c.toNat

/-- The characters of a line behind so many others, with every tab as blanks up to the next stop. -/
def expandTabs : Nat → List Char → List Char
  | _, [] => []
  | column, c :: rest =>
    if c = '\t' then
      let width := tabWidth - column % tabWidth
      List.replicate width ' ' ++ expandTabs (column + width) rest
    else c :: expandTabs (column + 1) rest

/-- The lines that a text shows as. -/
def displayLines (s : String) : List String :=
  (split '\n' (s.toList.filter fun c => !isCursorMove c)).map fun cs =>
    String.ofList (expandTabs 0 cs)

end LiveTree.Text
