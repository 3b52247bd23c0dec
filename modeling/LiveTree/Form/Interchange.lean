import LiveTree.Form.Plain
import LiveTree.Text.Quoted
import LiveTree.Value.Text

/-! Interchange text: plain data written with brackets, braces and double quotes. All characters
beyond the printable ones of the first 128 code points are escaped in units of 16 bits. -/

namespace LiveTree

namespace Text

/-- A unit of 16 bits as an escape. -/
def escapeUnit (n : Nat) : List Char := backslash :: 'u' :: hex 4 n

/-- A character in interchange text. -/
def interchangeChar (c : Char) : List Char :=
  let n := c.toNat
  if c = doubleQuote ∨ c = backslash then [backslash, c]
  else if c = '\n' then [backslash, 'n']
  else if c = '\r' then [backslash, 'r']
  else if c = '\t' then [backslash, 't']
  else if n = 8 then [backslash, 'b']
  else if n = 12 then [backslash, 'f']
  else if 0x20 ≤ n ∧ n < 0x7f then [c]
  else if n < 0x10000 then escapeUnit n
  else escapeUnit (0xd800 + (n - 0x10000) / 0x400) ++ escapeUnit (0xdc00 + (n - 0x10000) % 0x400)

/-- A text in interchange text. -/
def interchange (s : String) : String :=
  String.ofList (doubleQuote :: s.toList.flatMap interchangeChar ++ [doubleQuote])

end Text

/-- How interchange text is spread: on one line, or on a line for each element with so many
spaces for each level. -/
inductive Spread where
  | line
  | lines (indent : Nat)
  deriving DecidableEq, Inhabited, Repr

namespace Spread

/-- What stands between two elements at a level. -/
def separator : Spread → Nat → String
  | line, _ => ", "
  | lines indent, level => ",\n" ++ String.ofList (List.replicate (indent * level) ' ')

/-- What stands before the first element or after the last one. -/
def edge : Spread → Nat → String
  | line, _ => ""
  | lines indent, level => "\n" ++ String.ofList (List.replicate (indent * level) ' ')

/-- Elements between brackets; nothing stands between the brackets if there are none. -/
def enclose (sp : Spread) (level : Nat) (opening closing : String) : List String → String
  | [] => opening ++ closing
  | parts =>
    opening ++ sp.edge (level + 1) ++ Text.joined (sp.separator (level + 1)) parts
      ++ sp.edge level ++ closing

end Spread

namespace Data

mutual

/-- Data as interchange text, at a level. -/
def interchange (sp : Spread) (level : Nat) : Data Empty → Except Fault String
  | null => .ok "null"
  | bool b => .ok (if b then "true" else "false")
  | int i => intText i
  | float x => .ok (Number.Layout.interchange.text x)
  | str t => .ok (Text.interchange t)
  | list items => do return sp.enclose level "[" "]" (← interchangeAll sp (level + 1) items)
  | tuple items => do return sp.enclose level "[" "]" (← interchangeAll sp (level + 1) items)
  | dict entries => do
    return sp.enclose level "\x7b" "\x7d" (← interchangeEntries sp (level + 1) entries)
  | leaf n => nomatch n

/-- The elements of a sequence. -/
def interchangeAll (sp : Spread) (level : Nat) : List (Data Empty) → Except Fault (List String)
  | [] => return []
  | d :: rest => do
    let text ← interchange sp level d
    return text :: (← interchangeAll sp level rest)

/-- The entries of a dictionary. -/
def interchangeEntries (sp : Spread) (level : Nat) :
    List (String × Data Empty) → Except Fault (List String)
  | [] => return []
  | (k, d) :: rest => do
    let text ← interchange sp level d
    return (Text.interchange k ++ ": " ++ text) :: (← interchangeEntries sp level rest)

end

end Data

namespace Store

/-- A value as interchange text, with nodes by their written form. -/
def interchange (s : Store) (sp : Spread) (v : Value) : Except Fault String := do
  let d ← s.dataWith (fun r => Data.str <$> s.writtenValue (.node r)) v
  d.interchange sp 0

end Store

end LiveTree
