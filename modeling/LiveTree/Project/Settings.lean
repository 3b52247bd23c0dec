import LiveTree.Form.Reading
import LiveTree.Text.Path

/-! Reading settings text: names with their values, line by line, in tables that headings open.
A name is written once, and a table is opened once. Values are quoted texts, integers, numbers,
truth values, lists and inline tables. -/

namespace LiveTree.Settings

variable {ν : Type}

/-- A reader takes characters off the front of a text, or refuses it. -/
abbrev Reader : Type → Type := StateT (List Char) Option

/-! ### Signs and gaps -/

/-- Takes the longest start of characters in a class. -/
def takeClass (test : Char → Bool) : Reader (List Char) :=
  modifyGet fun cs => (cs.takeWhile test, cs.dropWhile test)

/-- Takes the blanks on a line. -/
def blanks : Reader Unit := discard <| takeClass fun c => c = ' ' || c = '\t'

/-- The rest of a text after comments, blanks and line ends. -/
def afterGaps (inComment : Bool) : List Char → List Char
  | [] => []
  | c :: rest =>
    if c = '\n' then afterGaps false rest
    else if inComment || c = '#' then afterGaps true rest
    else if c = ' ' || c = '\t' then afterGaps false rest
    else c :: rest

/-- Takes comments, blanks and line ends. -/
def gaps : Reader Unit := modify (afterGaps false)

/-- Takes a character if it comes next. -/
def takeIf (c : Char) : Reader Bool := do
  match ← get with
  | c' :: rest => if c' = c then set rest; return true else return false
  | [] => return false

/-- Takes a character that has to come next. -/
def expect (c : Char) : Reader Unit := do
  unless ← takeIf c do failure

/-- Takes what may follow on a line: blanks, a comment, and the line's end. -/
def lineEnd : Reader Unit := do
  blanks
  if ← takeIf '#' then discard <| takeClass (· ≠ '\n')
  match ← get with
  | [] => return
  | _ => expect '\n'

/-! ### Texts and names -/

/-- Reads a quoted text. Between double quotes there may be escapes, between single ones not. -/
def quoted : Reader String := do
  if ← takeIf Text.doubleQuote then
    match Text.readQuoted? (← get) with
    | some (s, rest) => set rest; return s
    | none => failure
  else
    expect Text.singleQuote
    let cs ← takeClass fun c => c ≠ Text.singleQuote && c ≠ '\n'
    expect Text.singleQuote
    return String.ofList cs

/-- Whether a character can stand in a name without quotes. -/
def isNameChar (c : Char) : Bool := c.isAlphanum || c = '_' || c = '-'

/-- Reads one name. -/
def name : Reader String := do
  match ← takeClass isNameChar with
  | [] => quoted
  | cs => return String.ofList cs

/-- Reads names with dots between them, with a bound on their number. -/
def namesTo : Nat → Reader (List String)
  | 0 => failure
  | n + 1 => do
    blanks
    let first ← name
    blanks
    if ← takeIf '.' then return first :: (← namesTo n) else return [first]

/-! ### Values -/

/-- The value of a word: a truth value or a number. Low lines between digits do not count. -/
def wordValue? (word : List Char) : Option (Data ν) :=
  match String.ofList word with
  | "true" => some (.bool true)
  | "false" => some (.bool false)
  | "inf" | "+inf" => some (.float (1.0 / 0.0))
  | "-inf" => some (.float (-1.0 / 0.0))
  | "nan" | "+nan" | "-nan" => some (.float (0.0 / 0.0))
  | _ =>
    let between : Bool := (Text.split '_' word).all fun part =>
      part.head?.any Char.isDigit && part.getLast?.any Char.isDigit
    let digits := word.filter (· ≠ '_')
    let plain := if digits.head? = some '+' then digits.drop 1 else digits
    if between || !word.contains '_' then Data.numberData? plain else none

/-- Joins two values of an inline table under a dotted name. -/
def nest (names : List String) (v : Data ν) : Option (String × Data ν) :=
  match names with
  | [] => none
  | [k] => some (k, v)
  | k :: rest => (nest rest v).map fun p => (k, .dict [p])

mutual

/-- Reads a value, with a bound on the steps. -/
def valueTo : Nat → Reader (Data ν)
  | 0 => failure
  | n + 1 => do
    match ← get with
    | '[' :: rest => do
      set rest
      gaps
      if ← takeIf ']' then return .list [] else return .list (← itemsTo n)
    | '\x7b' :: rest => do
      set rest
      blanks
      if ← takeIf '\x7d' then return .dict [] else do
        let l ← entriesTo n
        if (l.map Prod.fst).eraseDups.length = l.length then return .dict l else failure
    | c :: _ =>
      if c = Text.doubleQuote || c = Text.singleQuote then return .str (← quoted)
      else
        let word ← takeClass fun c => Data.isWordChar c || c = '_'
        match wordValue? word with
        | some v => return v
        | none => failure
    | [] => failure

/-- Reads the items of a list up to its end. A comma may follow the last one. -/
def itemsTo : Nat → Reader (List (Data ν))
  | 0 => failure
  | n + 1 => do
    let v ← valueTo n
    gaps
    if ← takeIf ']' then return [v]
    expect ','
    gaps
    if ← takeIf ']' then return [v]
    return v :: (← itemsTo n)

/-- Reads the entries of an inline table up to its end. -/
def entriesTo : Nat → Reader (List (String × Data ν))
  | 0 => failure
  | n + 1 => do
    let names ← namesTo n
    expect '='
    blanks
    let v ← valueTo n
    let some entry := nest names v | failure
    blanks
    if ← takeIf '\x7d' then return [entry]
    expect ','
    blanks
    return entry :: (← entriesTo n)

end

/-! ### Tables -/

/-- What has been read so far, and the table that lines belong to. -/
structure Draft (ν : Type) where
  settings : Data ν
  table : List String
  /-- Tables that no heading may open and no dotted name may lead through. -/
  opened : List (List String)
  /-- Tables that dotted names have led through since the last heading. -/
  passed : List (List String)
  /-- Lists and inline tables. Nothing can be added in them. -/
  fixed : List (List String)

/-- The entries of a table, none for anything else. -/
def entriesOf? : Data ν → Option (List (String × Data ν))
  | .dict l => some l
  | _ => none

/-- Changes the entry at a place, making tables on the way to it. -/
def change (f : Option (Data ν) → Option (Data ν)) : Data ν → List String → Option (Data ν)
  | d, [] => f (some d)
  | d, [k] => do
    let l ← entriesOf? d
    return .dict (Entries.put k (← f (Entries.find k l)) l)
  | d, k :: rest => do
    let l ← entriesOf? d
    let inner := (Entries.find k l).getD (.dict [])
    match inner with
    | .list items =>
      let last ← items.getLast?
      let changed ← change f last rest
      return .dict (Entries.put k (.list (items.dropLast ++ [changed])) l)
    | _ => return .dict (Entries.put k (← change f inner rest) l)

namespace Draft

/-- Whether nothing can be added at a place. -/
def isFixed (d : Draft ν) (place : List String) : Bool := d.fixed.any fun c => c.isPrefixOf place

/-- A line: a value under a name that has none yet. -/
def assign (d : Draft ν) (names : List String) (v : Data ν) : Option (Draft ν) := do
  let place := d.table ++ names
  let between := (List.range names.length).drop 1 |>.map fun n => d.table ++ names.take n
  let once (old : Option (Data ν)) : Option (Data ν) := if old.isNone then some v else none
  let fixed :=
    match v with
    | .list _ | .dict _ => place :: d.fixed
    | _ => d.fixed
  if between.any d.opened.contains || d.isFixed place.dropLast then none
  else
    let settings ← change once d.settings place
    return { d with settings, passed := between ++ d.passed, fixed }

/-- A heading: lines now belong to its table. -/
def openTable (d : Draft ν) (names : List String) : Option (Draft ν) := do
  let opened := d.passed ++ d.opened
  let keep (old : Option (Data ν)) : Option (Data ν) :=
    match old with
    | none => some (.dict [])
    | some (.dict l) => some (.dict l)
    | some (.list items) => if items.isEmpty then none else some (.list items)
    | _ => none
  if opened.contains names || d.isFixed names then none
  else return ⟨← change keep d.settings names, names, names :: opened, [], d.fixed⟩

/-- A heading of a list of tables: lines now belong to a new table at its end. -/
def openItem (d : Draft ν) (names : List String) : Option (Draft ν) := do
  let append (old : Option (Data ν)) : Option (Data ν) :=
    match old with
    | none => some (.list [.dict []])
    | some (.list items) => some (.list (items ++ [.dict []]))
    | _ => none
  let outside (place : List String) : Bool := !names.isPrefixOf place
  if d.isFixed names then none
  else
    let settings ← change append d.settings names
    return ⟨settings, names, names :: (d.passed ++ d.opened).filter outside, [],
      d.fixed.filter outside⟩

end Draft

/-- Reads one line. -/
def line (bound : Nat) (d : Draft ν) : Reader (Draft ν) := do
  let next ← if ← takeIf '[' then do
      let isItem ← takeIf '['
      let names ← namesTo bound
      expect ']'
      if isItem then expect ']'
      pure (if isItem then d.openItem names else d.openTable names)
    else do
      let names ← namesTo bound
      expect '='
      blanks
      let v ← valueTo bound
      pure (d.assign names v)
  lineEnd
  match next with
  | some d => return d
  | none => failure

/-- Reads lines up to the end, with a bound on their number. -/
def linesTo (bound : Nat) : Nat → Draft ν → Reader (Draft ν)
  | 0, _ => failure
  | n + 1, d => do
    gaps
    match ← get with
    | [] => return d
    | _ => linesTo bound n (← line bound d)

end LiveTree.Settings

namespace LiveTree.Data

/-- The settings that a text writes. -/
def ofSettings? {ν : Type} (s : String) : Option (Data ν) := do
  let cs := s.toList.filter (· ≠ '\r')
  let bound := 2 * cs.length + 1
  let (d, _) ← (Settings.linesTo bound bound ⟨.dict [], [], [], [], []⟩).run cs
  return d.settings

end LiveTree.Data
