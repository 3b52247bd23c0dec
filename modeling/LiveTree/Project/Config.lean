import LiveTree.Project.Disk

/-! The configuration of a project: where its operators come from, and its usual tree. It stands
in a table of a settings file in the project's folder, and relative locations in it are seen from
that folder. -/

namespace LiveTree

/-- Where the operators of a project come from. -/
inductive RegistrySource where
  /-- A file with a module, and the name of the registry in it. -/
  | script (location : Location) (name : Option String)
  /-- The dotted name of a module and the name of the registry in it, with a colon between. -/
  | module (path : String)
  deriving DecidableEq, Inhabited, Repr

/-- The configuration of a project. -/
structure Config where
  registry : Option RegistrySource := none
  tree : Option Location := none
  /-- The folder that the settings file is in. -/
  root : Option Location := none
  deriving DecidableEq, Inhabited, Repr

/-- Why there is no configuration to be had. -/
inductive ConfigFault where
  | unreadable (e : DiskFault)
  /-- The file is not the text of any settings. -/
  | malformed (file : Location)
  /-- What the project's table should be in is not a table. -/
  | toolNotTable
  | sectionNotTable
  /-- A module is given without a name in it. -/
  | unnamedRegistry (path : String)
  | registryNotSource
  | scriptNotText
  | nameNotText
  | treeNotText
  deriving DecidableEq, Inhabited, Repr

namespace ConfigFault

/-- The words of a fault in the configuration itself. -/
def message? : ConfigFault → Option String
  | malformed file => some ("Invalid TOML in " ++ file.toText)
  | sectionNotTable => some "Invalid [tool.proptree]: expected a table"
  | unnamedRegistry path =>
    some ("Invalid registry '" ++ path ++ "'. Expected format: 'module.path:variable_name'")
  | registryNotSource => some ("Invalid [tool.proptree].registry: "
      ++ "expected 'module:variable' or a table with a 'script' key")
  | scriptNotText => some "Invalid [tool.proptree].registry.script: expected string path"
  | nameNotText => some "Invalid [tool.proptree].registry.name: expected string"
  | treeNotText => some "Invalid [tool.proptree].tree: expected string path"
  | unreadable _ | toolNotTable => none

end ConfigFault

namespace RegistrySource

variable {ν : Type}

/-- The script that a table gives, seen from the project's folder. -/
def scriptOf (root : Location) (table : Data ν) : Except ConfigFault Location :=
  match table.get? "script" with
  | some (.str s) => .ok ((Location.ofText s).within root)
  | _ => .error .scriptNotText

/-- The name of the registry in a script, if the table gives one. -/
def nameOf (table : Data ν) : Except ConfigFault (Option String) :=
  match table.get? "name" with
  | none | some .null => .ok none
  | some (.str s) => .ok (some s)
  | some _ => .error .nameNotText

/-- A script as the table that gives it, seen from the project's folder. -/
def ofTable (root : Location) (table : Data ν) : Except ConfigFault RegistrySource := do
  let script ← scriptOf root table
  let name ← nameOf table
  return .script script name

/-- A source as it is given: a text for a module, a table for a script. -/
def ofData (root : Location) : Data ν → Except ConfigFault RegistrySource
  | .str s => if s.contains ':' then .ok (.module s) else .error (.unnamedRegistry s)
  | .dict entries => ofTable root (.dict entries)
  | _ => .error .registryNotSource

end RegistrySource

namespace Config

variable {ν : Type}

/-- The name of the table that holds the table of the project. -/
def outerTable : String := "tool"

/-- The name of the table of the project. -/
def innerTable : String := "proptree"

/-- The name of the settings file. -/
def fileName : String := "pyproject.toml"

/-- The table of the project, empty if it is not there. -/
def table (settings : Data ν) : Except ConfigFault (Data ν) :=
  match settings.get? outerTable with
  | none => .ok (.dict [])
  | some (.dict entries) =>
    match Entries.find innerTable entries with
    | none => .ok (.dict [])
    | some (.dict entries) => .ok (.dict entries)
    | some _ => .error .sectionNotTable
  | some _ => .error .toolNotTable

/-- Where the operators come from, by the table of the project. -/
def registryOf (root : Location) (table : Data ν) : Except ConfigFault (Option RegistrySource) :=
  match table.get? "registry" with
  | none => .ok none
  | some d => some <$> RegistrySource.ofData root d

/-- The usual tree, by the table of the project. -/
def treeOf (root : Location) (table : Data ν) : Except ConfigFault (Option Location) :=
  match table.get? "tree" with
  | none => .ok none
  | some (.str s) => .ok (some ((Location.ofText s).within root))
  | some _ => .error .treeNotText

/-- The configuration that some settings give to the project in a folder. -/
def ofSettings (root : Location) (settings : Data ν) : Except ConfigFault Config := do
  let table ← table settings
  let registry ← registryOf root table
  let tree ← treeOf root table
  return { registry, tree, root := some root }

end Config

namespace Disk

variable (d : Disk)

/-- The nearest settings file, in a folder or in one that it lies in. -/
def findConfig (folder : Location) : Option Location :=
  let place := folder.resolve d.working
  ((place :: place.parents).map (·.entry Config.fileName)).find? d.isFile

/-- The configuration in a settings file. -/
def loadConfig (file : Location) : Except ConfigFault Config := do
  match d.read file with
  | .error e => throw (.unreadable e)
  | .ok document =>
    match document.settings? with
    | none => throw (.malformed file)
    | some settings => Config.ofSettings file.parent settings

/-- The configuration of the project that the working folder is in, empty if it is in none. -/
def config : Except ConfigFault Config :=
  match d.findConfig ⟨.here, []⟩ with
  | none => .ok {}
  | some file => d.loadConfig file

end Disk

end LiveTree
