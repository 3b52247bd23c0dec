import LiveTree.Form.Decode
import LiveTree.Project.Arguments
import LiveTree.Project.Drawing
import LiveTree.Project.Markup
import LiveTree.Project.Module
import LiveTree.Tree.Read
import LiveTree.Tree.Show

/-! Running commands on a disk. A command either ends with what it prints, what it reports and the
disk as it leaves it, or with a trouble. Some troubles have words and are reported; the others end
the program where they arise. -/

namespace LiveTree

/-- Why a command fails. -/
inductive Trouble where
  | usage (e : UsageFault)
  /-- No tree file is given or configured. -/
  | noTree
  | unreadable (file : Location)
  /-- The file does not hold the interchange text of any data. -/
  | malformed (file : Location)
  /-- The data in the file is not the form of a node. -/
  | notATree (file : Location)
  | config (e : ConfigFault)
  | load (e : LoadFault)
  | evaluation (e : Fault)
  /-- Some constraints fail. -/
  | invalid (failures : Entries Failures)
  | unwritable (e : DiskFault)
  /-- The markup of a message has a fault. What was written before stays. -/
  | unshown (left : Disk)
  deriving Inhabited

namespace Trouble

/-- The words in which a trouble is reported, if it is. -/
def message? : Trouble → Option String
  | usage _ | unwritable _ | unshown _ => none
  | noTree => some "No tree file given and no [tool.proptree].tree configured"
  | unreadable file => some ("Cannot read " ++ file.toText)
  | malformed file => some ("Invalid JSON in " ++ file.toText)
  | notATree file => some (file.toText ++ " is not a serialized tree")
  | config e => e.message?
  | load e => e.message?
  | evaluation e => if e.isReported then e.message? else none
  | invalid _ => some "Tree is invalid"

/-- The exit code of the program. -/
def exitCode : Trouble → Nat
  | usage .helpWanted => 0
  | usage .misused => 2
  | _ => 1

/-- The constraints that fail, each with the path of its node and its words. -/
def failures : Trouble → List (String × String × String)
  | invalid failures => failures.toList.flatMap fun (path, found) =>
      found.toList.map fun (key, words) => (path, key, words)
  | _ => []

end Trouble

/-- What a command leaves when it succeeds. -/
structure Done where
  /-- What it prints. -/
  output : String := ""
  /-- What it reports, if anything. -/
  report : Option String := none
  disk : Disk

/-- The outcome of a command. -/
abbrev Ended : Type := Except Trouble Done

namespace Ended

/-- The exit code of the program. -/
def exitCode : Ended → Nat
  | .ok _ => 0
  | .error e => e.exitCode

/-- What the program prints. -/
def output : Ended → String
  | .ok done => done.output
  | .error _ => ""

/-- The lines in which the outcome is reported. -/
def report : Ended → List String
  | .ok done => (done.report.map Text.displayLines).getD []
  | .error e => (e.message?.map fun m => Text.displayLines ("✗ " ++ m)).getD []

/-- The disk afterwards. -/
def disk (before : Disk) : Ended → Disk
  | .ok done => done.disk
  | .error (.unshown left) => left
  | .error _ => before

end Ended

namespace Command

variable (d : Disk)

/-- The tree file that a command is for. -/
def treeFile : Option Location → Except Trouble Location
  | some file => .ok file
  | none =>
    match d.config with
    | .error e => .error (.config e)
    | .ok config => config.tree.elim (.error .noTree) .ok

/-- The message that a tree is being loaded. -/
def loadingText (file : Location) : String :=
  "[cyan]Loading tree from:[/cyan] " ++ file.toText

/-- The message that a file has been written. -/
def writtenText (file : Location) : String :=
  "[green]✓ Snapshot written to " ++ file.toText ++ "[/green]"

/-- Shows a text with markup. -/
def shown [Console] (text : String) : Except Trouble String :=
  (Console.plain text).elim (.error (.unshown d)) .ok

/-- The data of which a file holds the interchange text. -/
def readData (file : Location) : Except Trouble (Data Empty) :=
  match d.read file with
  | .ok document => document.data?.elim (.error (.malformed file)) .ok
  | .error _ => .error (.unreadable file)

/-- The tree whose form is the data in a file: its nodes and its root. -/
def rebuiltTree (file : Location) (form : Data Empty) : Except Trouble (Store × NodeRef) :=
  match (deserialize (form.map Empty.elim) .builtin).run .initial with
  | .ok root s => .ok (s, root)
  | .error (.invalid _) _ => .error (.notATree file)
  | .error e _ => .error (.evaluation e)

/-- The tree that a command is for. -/
def loadTree [Console] (tree : Option Location) : Except Trouble (Store × NodeRef) := do
  let file ← treeFile d tree
  let _ ← shown d (loadingText file)
  rebuiltTree file (← readData d file)

/-- Where the registry of a command comes from, if it comes from anywhere. -/
def source (choice : RegistryChoice) : Except Trouble (Option RegistrySource) :=
  match choice.registry with
  | some text =>
    if text.contains ':' then .ok (some (.module text))
    else .ok (some (.script (.ofText text) choice.name))
  | none =>
    match d.config with
    | .error e => .error (.config e)
    | .ok config => .ok config.registry

/-- The registry that a source gives, with some folders to import from. Nothing means the standard
operators. -/
def supply (folders : List Location) : Option RegistrySource → Except Trouble Registry
  | none => .ok .standard
  | some source => (d.load folders source).mapError .load

/-- The registry of a command. Modules can be imported from some folders. -/
def loadRegistry (folders : List Location) (choice : RegistryChoice) : Except Trouble Registry := do
  supply d folders (← source d choice)

/-- What comes of an operation on a tree. -/
def onTree {α : Type} (tree : Store × NodeRef) (registry : Option Registry)
    (m : WrapperRef → TreeM Unit α) : Except Trouble α :=
  let forest : Forest := ⟨tree.1, #[.ofNode tree.2 registry]⟩
  match (m ⟨0⟩).run ⟨forest, ()⟩ with
  | .ok a _ => .ok a
  | .error e _ => .error (.evaluation e)

variable [Host]

/-- The failures of a tree's constraints, or if there are none the number of its nodes. -/
def findings (w : WrapperRef) : TreeM Unit (Except (Entries Failures) Nat) := do
  let failures ← TreeM.validateDeep w
  if failures.isEmpty then return .ok (← TreeM.count w) else return .error failures

/-- The interchange text of a tree's values. -/
def snapshotText (indent : Int) (w : WrapperRef) : TreeM Unit String := do
  let v ← TreeM.snapshot w
  TreeM.check (·.interchange (.lines indent.toNat) v)

variable [Console]

/-- Runs a command. Modules can be imported from some folders. -/
def run (folders : List Location) : Command → Ended
  | outline tree => do
    let drawing ← onTree (← loadTree d tree) none TreeM.draw
    return { output := String.join (drawing.lines.map (· ++ "\n")), disk := d }
  | validate tree choice => do
    let tree ← loadTree d tree
    let registry ← loadRegistry d folders choice
    match ← onTree tree (some registry) findings with
    | .ok count =>
      return { report := some ("✓ All constraints pass (" ++ toString count ++ " nodes)"), disk := d }
    | .error failures => throw (.invalid failures)
  | snapshot tree choice output indent => do
    let tree ← loadTree d tree
    let registry ← loadRegistry d folders choice
    let text := (← onTree tree (some registry) (snapshotText indent)) ++ "\n"
    match output with
    | none => return { output := text, disk := d }
    | some file =>
      let written := do (← d.ensureFolder file.parent).write file (.text text)
      match written with
      | .ok disk => return { report := some (← shown disk (writtenText file)), disk }
      | .error e => throw (.unwritable e)

/-- Runs the command that arguments write. -/
def runArguments (folders : List Location) (arguments : List String) : Ended :=
  match Arguments.read arguments with
  | .ok command => command.run d folders
  | .error e => .error (.usage e)

end Command

end LiveTree
