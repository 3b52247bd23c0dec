import LiveTree.Project.Document
import LiveTree.Project.Location

/-! A disk: folders within folders, and files with their contents. A location is followed name by
name, and every name but the last has to lead to a folder. -/

namespace LiveTree

/-- What a folder holds under a name. -/
inductive Item where
  | file (d : Document)
  | folder (items : List (String × Item))
  deriving Inhabited

/-- The top folder of a disk, and where on it the working folder is. -/
structure Disk where
  top : Item
  working : Location
  deriving Inhabited

/-- Why a location cannot be used. -/
inductive DiskFault where
  | absent
  | notAFolder
  | isAFolder
  | present
  deriving DecidableEq, Inhabited, Repr

namespace Item

/-- What lies under some names, one within another. -/
def find? : Item → List String → Option Item
  | item, [] => some item
  | file _, _ :: _ => none
  | folder items, name :: rest =>
    match Entries.find name items with
    | some item => item.find? rest
    | none => none

/-- The items of a folder. A file holds none. -/
def items : Item → List (String × Item)
  | folder items => items
  | file _ => []

/-- An item with another one put under some names, in folders that are made as needed. -/
def put (item : Item) (names : List String) (new : Item) : Item :=
  match names with
  | [] => new
  | name :: rest =>
    let inner := (Entries.find name item.items).getD (folder [])
    folder (Entries.put name (inner.put rest new) item.items)

end Item

namespace Disk

/-- A disk with nothing on it but the working folder. -/
def empty (working : Location) : Disk :=
  ⟨(Item.folder []).put working.names (.folder []), working⟩

/-- What lies at a place, given by its names from the top. -/
def item? (d : Disk) (names : List String) : Option Item := d.top.find? names

/-- Puts an item at a place. -/
def put (d : Disk) (names : List String) (item : Item) : Disk :=
  { d with top := d.top.put names item }

/-- Follows names from a place. What they lead to need not exist. -/
def follow (d : Disk) (place : List String) : List String → Except DiskFault (List String)
  | [] => .ok place
  | name :: rest =>
    match d.item? place with
    | none => .error .absent
    | some (.file _) => .error .notAFolder
    | some (.folder _) =>
      d.follow (if name = ".." then place.dropLast else place ++ [name]) rest

/-- The place that a location leads to. -/
def place (d : Disk) (l : Location) : Except DiskFault (List String) :=
  d.follow [] (l.within d.working).names

/-- What lies at a location. -/
def get (d : Disk) (l : Location) : Except DiskFault Item := do
  match d.item? (← d.place l) with
  | some item => return item
  | none => throw .absent

/-- The contents of a file. -/
def read (d : Disk) (l : Location) : Except DiskFault Document := do
  match ← d.get l with
  | .file contents => return contents
  | .folder _ => throw .isAFolder

/-- Whether there is a file at a location. -/
def isFile (d : Disk) (l : Location) : Bool :=
  match d.get l with
  | .ok (.file _) => true
  | _ => false

/-- Whether there is a folder at a location. -/
def isFolder (d : Disk) (l : Location) : Bool :=
  match d.get l with
  | .ok (.folder _) => true
  | _ => false

/-- Writes a file, over the one that is there. -/
def write (d : Disk) (l : Location) (contents : Document) : Except DiskFault Disk := do
  let place ← d.place l
  match d.item? place with
  | some (.folder _) => throw .isAFolder
  | _ => return d.put place (.file contents)

/-- Makes a folder in a folder that is there. -/
def makeFolder (d : Disk) (l : Location) : Except DiskFault Disk := do
  let place ← d.place l
  match d.item? place with
  | some _ => throw .present
  | none => return d.put place (.folder [])

/-- A folder that could not be made is as good as made if it is there. -/
def orThere (d : Disk) (l : Location) : Except DiskFault Disk → Except DiskFault Disk
  | .ok made => .ok made
  | .error e => if d.isFolder l then .ok d else .error e

/-- Makes sure that there is a folder, given by its names from the last to the first. The folders
above it are made only if it cannot be made without them. -/
def ensureFrom (d : Disk) (start : Start) : List String → Except DiskFault Disk
  | [] => d.orThere ⟨start, []⟩ (d.makeFolder ⟨start, []⟩)
  | name :: above =>
    let l : Location := ⟨start, (name :: above).reverse⟩
    match d.makeFolder l with
    | .error .absent => do
      let d ← ensureFrom d start above
      d.orThere l (d.makeFolder l)
    | made => d.orThere l made

/-- Makes sure that there is a folder. -/
def ensureFolder (d : Disk) (l : Location) : Except DiskFault Disk :=
  d.ensureFrom l.start l.names.reverse

end Disk

end LiveTree
