import LiveTree.Data
import LiveTree.Number.Reading
import LiveTree.Text.Quoted

/-! Reading interchange text. A quoted text is first cut out, then its escapes are read as code
values, and two values that are halves of one character are put together. -/

namespace LiveTree

namespace Text

/-- Cuts a quoted text behind its opening quote: what is in it, and what follows it. A control
character ends the reading. -/
def cutQuoted : List Char → Option (List Char × List Char)
  | [] => none
  | '\\' :: c :: rest => (cutQuoted rest).map fun p => ('\\' :: c :: p.1, p.2)
  | c :: rest =>
    if c = doubleQuote then some ([], rest)
    else if c.toNat < 0x20 then none
    else (cutQuoted rest).map fun p => (c :: p.1, p.2)

/-- The value of a hexadecimal digit. -/
def hexValue? (c : Char) : Option Nat :=
  let n := c.toNat
  if '0' ≤ c ∧ c ≤ '9' then some (n - 48)
  else if 'a' ≤ c ∧ c ≤ 'f' then some (n - 87)
  else if 'A' ≤ c ∧ c ≤ 'F' then some (n - 55)
  else none

/-- The number that hexadecimal digits write. -/
def readHex? (cs : List Char) : Option Nat :=
  cs.foldlM (fun n c => (hexValue? c).map (16 * n + ·)) 0

/-- The code value of an escape of one letter. -/
def escapeValue? (c : Char) : Option Nat :=
  match c with
  | '\\' | '/' => some c.toNat
  | 'b' => some 8
  | 'f' => some 12
  | 'n' => some 10
  | 'r' => some 13
  | 't' => some 9
  | _ => if c = doubleQuote then some c.toNat else none

/-- The code values in a quoted text. -/
def codeValues? : List Char → Option (List Nat)
  | [] => some []
  | '\\' :: 'u' :: a :: b :: c :: d :: rest => do
    let n ← readHex? [a, b, c, d]
    return n :: (← codeValues? rest)
  | '\\' :: c :: rest => do
    let n ← escapeValue? c
    return n :: (← codeValues? rest)
  | c :: rest => (codeValues? rest).map (c.toNat :: ·)

/-- Whether a code value is the first half of a character. -/
def isHighHalf (n : Nat) : Bool := 0xd800 ≤ n && n < 0xdc00

/-- Whether a code value is the second half of a character. -/
def isLowHalf (n : Nat) : Bool := 0xdc00 ≤ n && n < 0xe000

/-- The characters of some code values. Halves have to stand together. -/
def charsOfValues? : List Nat → Option (List Char)
  | [] => some []
  | n :: rest =>
    if isHighHalf n then
      match rest with
      | m :: rest =>
        if isLowHalf m then
          (charsOfValues? rest).map
            (Char.ofNat (0x10000 + (n - 0xd800) * 0x400 + (m - 0xdc00)) :: ·)
        else none
      | [] => none
    else if isLowHalf n then none
    else (charsOfValues? rest).map (Char.ofNat n :: ·)

/-- Reads a quoted text behind its opening quote. -/
def readQuoted? (cs : List Char) : Option (String × List Char) := do
  let (inside, rest) ← cutQuoted cs
  let chars ← charsOfValues? (← codeValues? inside)
  return (String.ofList chars, rest)

end Text

namespace Number

/-- Whether digits are there and start with no zero that could be left out. -/
def isWhole : List Char → Bool
  | [] => false
  | [_] => true
  | c :: _ => c ≠ '0'

/-- Whether characters are the places and the exponent of a number, or nothing at all. -/
def isTail (cs : List Char) : Bool :=
  let exponent : List Char → Bool
    | [] => true
    | mark :: rest => (mark = 'e' || mark = 'E') && (readSigned rest).isSome
  match cs with
  | '.' :: rest =>
    let places := rest.takeWhile Char.isDigit
    !places.isEmpty && exponent (rest.drop places.length)
  | _ => exponent cs

end Number

namespace Data

variable {ν : Type}

/-- Drops the blanks that may stand between the parts of interchange text. -/
def skipBlanks (cs : List Char) : List Char :=
  cs.dropWhile fun c => c = ' ' || c = '\t' || c = '\n' || c = '\r'

/-- The words that stand for data. -/
def wordData? (word : String) : Option (Data ν) :=
  match word with
  | "null" => some null
  | "true" => some (bool true)
  | "false" => some (bool false)
  | "NaN" | "Infinity" | "-Infinity" => (Number.readFloat? word).map float
  | _ => none

/-- The number that a text writes: an integer, unless it has places or an exponent. -/
def numberData? (cs : List Char) : Option (Data ν) :=
  let unsigned := if cs.head? = some '-' then cs.drop 1 else cs
  let whole := unsigned.takeWhile Char.isDigit
  let tail := unsigned.drop whole.length
  if Number.isWhole whole && Number.isTail tail then
    if tail.isEmpty then (Number.readSigned cs).map int
    else (Number.readFloat? (String.ofList cs)).map float
  else none

/-- Whether a character can stand in a word or a number. -/
def isWordChar (c : Char) : Bool := c.isAlphanum || c = '-' || c = '+' || c = '.'

mutual

/-- Reads data, with a bound on the steps. -/
def readTo : Nat → List Char → Option (Data ν × List Char)
  | 0, _ => none
  | n + 1, cs =>
    match skipBlanks cs with
    | [] => none
    | '[' :: rest =>
      match skipBlanks rest with
      | ']' :: rest => some (list [], rest)
      | rest => (readItemsTo n rest).map fun p => (list p.1, p.2)
    | '\x7b' :: rest =>
      match skipBlanks rest with
      | '\x7d' :: rest => some (dict [], rest)
      | rest => (readEntriesTo n rest).map fun p => (dict (Entries.ofList p.1).toList, p.2)
    | c :: rest =>
      if c = Text.doubleQuote then (Text.readQuoted? rest).map fun p => (str p.1, p.2)
      else
        let word := (c :: rest).takeWhile isWordChar
        let found := (wordData? (String.ofList word)).or (numberData? word)
        found.map fun d => (d, (c :: rest).drop word.length)

/-- Reads the items of a list up to its end. -/
def readItemsTo : Nat → List Char → Option (List (Data ν) × List Char)
  | 0, _ => none
  | n + 1, cs => do
    let (d, rest) ← readTo n cs
    match skipBlanks rest with
    | ']' :: rest => return ([d], rest)
    | ',' :: rest =>
      let (ds, rest) ← readItemsTo n rest
      return (d :: ds, rest)
    | _ => none

/-- Reads the entries of a dictionary up to its end. -/
def readEntriesTo : Nat → List Char → Option (List (String × Data ν) × List Char)
  | 0, _ => none
  | n + 1, cs => do
    let (d, rest) ← readTo n cs
    let k ← d.asText?
    match skipBlanks rest with
    | ':' :: rest =>
      let (v, rest) ← readTo n rest
      match skipBlanks rest with
      | '\x7d' :: rest => return ([(k, v)], rest)
      | ',' :: rest =>
        let (l, rest) ← readEntriesTo n rest
        return ((k, v) :: l, rest)
      | _ => none
    | _ => none

end

/-- The data that an interchange text writes. Nothing but blanks may follow it. -/
def ofInterchange? (s : String) : Option (Data ν) := do
  let cs := s.toList
  let (d, rest) ← readTo (2 * cs.length + 1) cs
  if (skipBlanks rest).isEmpty then return d else none

end Data

end LiveTree
