import LiveTree.Text.Path

/-! Locations of files: the names to go through, from the working folder or from the top. A name
`..` goes back up; it is kept until the location is resolved. -/

namespace LiveTree

/-- Where a location starts. -/
inductive Start where
  | here
  | top
  /-- The top, written with two slashes. They are kept as they are. -/
  | doubledTop
  deriving DecidableEq, Inhabited, Repr

/-- The location of a file or folder. -/
structure Location where
  start : Start
  names : List String
  deriving DecidableEq, Inhabited, Repr

namespace Location

/-- Where a text starts, by the number of its leading slashes. -/
def startOf : List Char → Start
  | '/' :: '/' :: '/' :: _ => .top
  | '/' :: '/' :: _ => .doubledTop
  | '/' :: _ => .top
  | _ => .here

/-- Reads a location. Names that are empty or a single dot lead nowhere and are dropped. -/
def ofText (s : String) : Location :=
  ⟨startOf s.toList, (Text.parts '/' s).filter fun name => name ≠ "" ∧ name ≠ "."⟩

/-- Writes a location. The working folder itself is a dot. -/
def toText (l : Location) : String :=
  let names := "/".intercalate l.names
  match l.start with
  | .here => if l.names.isEmpty then "." else names
  | .top => "/" ++ names
  | .doubledTop => "//" ++ names

/-- Whether a location does not depend on the working folder. -/
def isAbsolute (l : Location) : Bool := l.start ≠ .here

/-- A location seen from a folder. -/
def within (l folder : Location) : Location :=
  if l.isAbsolute then l else ⟨folder.start, folder.names ++ l.names⟩

/-- The entry of a folder with a name. -/
def entry (folder : Location) (name : String) : Location :=
  ⟨folder.start, folder.names ++ [name]⟩

/-- The last name. -/
def name (l : Location) : String := l.names.getLast?.getD ""

/-- The location without its last name. -/
def parent (l : Location) : Location := ⟨l.start, l.names.dropLast⟩

/-- The locations that a location lies in, nearest first. -/
def parents (l : Location) : List Location :=
  (List.range l.names.length).reverse.map fun n => ⟨l.start, l.names.take n⟩

/-- A name without its last dot and what follows it. A dot at either end of the name does not
count. -/
def withoutSuffix (name : String) : String :=
  let cs := name.toList
  let suffix := (cs.reverse.takeWhile (· ≠ '.')).reverse
  let kept := cs.take (cs.length - suffix.length - 1)
  if suffix.isEmpty || kept.isEmpty then name else String.ofList kept

/-- The last name without its suffix. -/
def stem (l : Location) : String := withoutSuffix l.name

/-- Names with every `..` taken back together with the name before it. -/
def collapse (names : List String) : List String :=
  names.foldl (fun kept name => if name = ".." then kept.dropLast else kept ++ [name]) []

/-- The same place as names from the top. -/
def resolve (l folder : Location) : Location := ⟨.top, collapse (l.within folder).names⟩

end Location

end LiveTree
