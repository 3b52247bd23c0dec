import LiveTree.Text.Blank
import LiveTree.Text.Case

/-! Text with markup, as a console shows it. What stands in brackets and begins with a small letter
or with `#`, `/` or `@` is a tag: it opens a style, or closes one if it begins with a slash. Tags
are not shown, and one that closes has to find what it closes. A backslash before a tag makes it
plain text. -/

namespace LiveTree

/-- The console on which a program shows its messages. -/
class Console where
  /-- What is seen of a text with markup, if there is no fault in it. -/
  plain : String → Option String

namespace Markup

/-- A part of a text with markup. -/
inductive Piece where
  | text (cs : List Char)
  | opening (style : List Char)
  /-- Closes a style, or without a name the last one opened. -/
  | closing (style : List Char)
  deriving Inhabited, Repr

/-- The tag at the start of a text, without its brackets, and what comes after it. -/
def tag? : List Char → Option (List Char × List Char)
  | '[' :: c :: rest =>
    let inner := rest.takeWhile fun c => c ≠ '[' && c ≠ ']'
    match rest.drop inner.length with
    | ']' :: after => if c.isLower || ['#', '/', '@'].contains c then some (c :: inner, after) else none
    | _ => none
  | _ => none

/-- What a tag does. What follows an equals sign in it is no part of the name of the style. -/
def Piece.ofTag (inner : List Char) : Piece :=
  let name (cs : List Char) : List Char := Text.lower (Text.strip (cs.takeWhile (· ≠ '=')))
  match inner with
  | '/' :: rest => closing (name rest)
  | _ => opening (name inner)

/-- So many parts of a text. Of the backslashes before a tag one in two is shown, and one before
another bracket is not. -/
def piecesTo : Nat → List Char → List Piece
  | 0, _ => []
  | n + 1, cs =>
    let slashes := cs.takeWhile (· = '\\')
    let shown := List.replicate (slashes.length / 2) '\\'
    let rest := cs.drop slashes.length
    match tag? rest, rest with
    | some (inner, rest), _ =>
      if slashes.length % 2 = 0 then .text shown :: .ofTag inner :: piecesTo n rest
      else .text (shown ++ ['['] ++ inner ++ [']']) :: piecesTo n rest
    | none, '[' :: rest => .text (slashes.dropLast ++ ['[']) :: piecesTo n rest
    | none, c :: rest => .text (slashes ++ [c]) :: piecesTo n rest
    | none, [] => [.text slashes]

/-- What is seen of some parts while styles are open, given from the last one opened. -/
def seen : List (List Char) → List Piece → Option (List Char)
  | _, [] => some []
  | styles, .text cs :: rest => (seen styles rest).map (cs ++ ·)
  | styles, .opening style :: rest => seen (style :: styles) rest
  | [], .closing _ :: _ => none
  | last :: styles, .closing style :: rest =>
    if style.isEmpty then seen styles rest
    else if (last :: styles).contains style then seen ((last :: styles).erase style) rest
    else none

/-- What is seen of a text with markup. Styles have the names that are written, but for blanks
around them and capital letters. -/
def plain (s : String) : Option String :=
  (seen [] (piecesTo (s.length + 1) s.toList)).map String.ofList

end Markup

/-- Messages are shown as their markup says, unless a program has a console of its own. -/
instance (priority := low) : Console := ⟨Markup.plain⟩

end LiveTree
