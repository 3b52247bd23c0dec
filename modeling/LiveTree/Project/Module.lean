import LiveTree.Project.Config
import LiveTree.Value.Text

/-! Modules that supply operators. A file is a module under the name that its enclosing packages
give it; a package is a folder with a marker file, which holds its own attributes. A registry is
taken from a module by its name there, or else it is the first one among the attributes in the
order of their names. -/

namespace LiveTree

/-- Why there is no registry to be had. -/
inductive LoadFault where
  /-- There is no module of this dotted name. -/
  | noModule (name : String)
  /-- What a module is looked for in is not a package. -/
  | notAPackage (name above : String)
  /-- A name that starts with a dot is the name of no module. -/
  | relativeName (name : String)
  | emptyName
  /-- The file is no module. -/
  | unloadable
  /-- A module is given without a name in it. -/
  | unnamed
  | noRegistry (module : String)
  | noAttribute (name module : String)
  /-- A function gives something else than a registry. -/
  | wrongResult (name module className : String)
  | notARegistry (name module : String)
  deriving DecidableEq, Inhabited, Repr

namespace LoadFault

/-- The words of a fault. -/
def message? : LoadFault → Option String
  | noModule name => some ("No module named " ++ Text.quote name)
  | notAPackage name above =>
    some ("No module named " ++ Text.quote name ++ "; " ++ Text.quote above ++ " is not a package")
  | relativeName name => some
      ("the 'package' argument is required to perform a relative import for " ++ Text.quote name)
  | emptyName => some "Empty module name"
  | unloadable => none
  | unnamed => some "Module path must be in format 'module.path:variable_name'"
  | noRegistry module => some ("Could not find a Registry in " ++ module ++ ", name it explicitly")
  | noAttribute name module => some ("Could not find registry '" ++ name ++ "' in " ++ module)
  | wrongResult name module className => some
      ("'" ++ name ++ "' in " ++ module ++ " returned " ++ className ++ ", expected a Registry")
  | notARegistry name module => some
      ("'" ++ name ++ "' in " ++ module ++ " is not a Registry or a function returning one")

end LoadFault

/-! ### From files to names -/

/-- The name without suffix of the file that marks a folder as a package. -/
def markerStem : String := "__init__"

/-- The suffix of the files that are modules. -/
def moduleSuffix : String := ".py"

/-- Where a module lies: in packages, outermost first. -/
structure ModulePlace where
  packages : List Location
  last : Location
  deriving DecidableEq, Inhabited, Repr

namespace ModulePlace

/-- The packages and the module itself. -/
def locations (p : ModulePlace) : List Location := p.packages ++ [p.last]

/-- The dotted name under which the module is imported. -/
def name (p : ModulePlace) : String := Text.undotted (p.locations.map (·.stem))

/-- The folder in which the import starts. -/
def folder (p : ModulePlace) : Location := (p.packages.head?.getD p.last).parent

end ModulePlace

namespace Disk

variable (d : Disk)

/-- Whether a folder is a package. -/
def isPackage (folder : Location) : Bool := d.isFile (folder.entry (markerStem ++ moduleSuffix))

/-- The place of the module that a file is. A marker file stands for its package. The packages are
those around the file without a gap. -/
def modulePlace (file : Location) : ModulePlace :=
  let file := file.resolve d.working
  let last := if d.isFile file && file.stem = markerStem then file.parent else file
  ⟨(last.parents.takeWhile d.isPackage).reverse, last⟩

end Disk

/-! ### From names to modules -/

/-- A module: its dotted name by parts, its attributes, and the folders its submodules are in. A
module that is no package has no such folders. -/
structure Module where
  names : List String
  attributes : Entries Attribute
  folders : Option (List Location)
  deriving Inhabited

namespace Disk

variable (d : Disk)

/-- The attributes of the module in a file. -/
def attributesAt (file : Location) : Except LoadFault (Entries Attribute) :=
  match d.read file with
  | .ok document => document.attributes?.elim (.error .unloadable) .ok
  | .error _ => .error .unloadable

/-- The module of a name in a folder, if there is one: a package, a file, or a folder without a
marker, which has no attributes. -/
def moduleIn (name : String) (folder : Location) :
    Option (Except LoadFault (Entries Attribute × Option (List Location))) :=
  let inner := folder.entry name
  let file := folder.entry (name ++ moduleSuffix)
  if d.isPackage inner then
    some do return (← d.attributesAt (inner.entry (markerStem ++ moduleSuffix)), some [inner])
  else if d.isFile file then some do return (← d.attributesAt file, none)
  else if d.isFolder inner then some (.ok (∅, some [inner]))
  else none

/-- The submodule of a module. -/
def submodule (m : Module) (name : String) : Except LoadFault Module := do
  let names := m.names ++ [name]
  match m.folders with
  | none => throw (.notAPackage (Text.undotted names) (Text.undotted m.names))
  | some folders =>
    match folders.findSome? (d.moduleIn name) with
    | none => throw (.noModule (Text.undotted names))
    | some found => do
      let (attributes, folders) ← found
      return { names, attributes, folders }

/-- Imports a module by its dotted name, starting in some folders. The packages in its name are
imported before it. -/
def importModule (folders : List Location) (name : String) : Except LoadFault Module :=
  if name = "" then .error .emptyName
  else if name.startsWith "." then .error (.relativeName name)
  else (Text.dotted name).foldlM d.submodule ⟨[], ∅, some folders⟩

end Disk

/-! ### From modules to registries -/

namespace Module

/-- Names that every module has, and that stand for no registry. -/
def commonNames : List String :=
  ["__name__", "__doc__", "__package__", "__loader__", "__spec__", "__class__", "__dict__"]

/-- The registry that an attribute is or gives. -/
def registryOf (name module : String) : Attribute → Except LoadFault Registry
  | .registry g | .maker g => .ok g
  | .otherMaker className => .error (.wrongResult name module className)
  | .other => .error (.notARegistry name module)

/-- The first registry among some attributes. Functions are not called. -/
def firstAmong : List (String × Attribute) → Option Registry
  | [] => none
  | (_, .registry g) :: _ => some g
  | _ :: rest => firstAmong rest

/-- Takes a registry from a module. The empty name is none. -/
def pick (m : Module) (name : Option String) : Except LoadFault Registry :=
  let module := Text.undotted m.names
  match name.filter (· ≠ "") with
  | some name =>
    match m.attributes.get? name with
    | some a => registryOf name module a
    | none =>
      .error (if name ∈ commonNames then .notARegistry name module else .noAttribute name module)
  | none =>
    let ordered := m.attributes.toList.mergeSort fun a b => decide (a.1 ≤ b.1)
    (firstAmong ordered).elim (.error (.noRegistry module)) .ok

end Module

namespace Disk

variable (d : Disk)

/-- The registry in a script, which can import what lies beside it and in other folders. -/
def loadScript (folders : List Location) (script : Location) (name : Option String) :
    Except LoadFault Registry := do
  let place := d.modulePlace script
  (← d.importModule (place.folder :: folders) place.name).pick name

/-- The registry that a module path names: a dotted name, a colon, and a name in the module. -/
def loadModulePath (folders : List Location) (path : String) : Except LoadFault Registry := do
  let cs := path.toList
  let module := String.ofList (cs.takeWhile (· ≠ ':'))
  let name := String.ofList ((cs.dropWhile (· ≠ ':')).drop 1)
  if name = "" then throw .unnamed
  else (← d.importModule folders module).pick (some name)

/-- The registry that a source gives, with some folders to import from. -/
def load (folders : List Location) : RegistrySource → Except LoadFault Registry
  | .script location name => d.loadScript folders location name
  | .module path => d.loadModulePath folders path

end Disk

end LiveTree
