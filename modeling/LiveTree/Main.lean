import LiveTree.Project.Run

/-! The program. It puts the files that a command may read on a disk, runs the command there, and
then prints, reports and writes what has come of it. -/

namespace LiveTree.Main

/-- No operators beyond those of the library. -/
instance : Host := ⟨fun name _ _ _ => .fail (.unknownOperator name)⟩

/-- Puts a file on the disk, if it is there and holds text. -/
def addFile (d : Disk) (file : Location) : IO Disk := do
  let place := file.resolve d.working
  match ← (IO.FS.readFile place.toText).toBaseIO with
  | .ok text => return d.put place.names (.file (.text text))
  | .error _ => return d

/-- Puts some files on the disk. -/
def addFiles (d : Disk) (files : List Location) : IO Disk := files.foldlM addFile d

/-- The settings files of the working folder and of those that it lies in. -/
def settingsFiles (working : Location) : List Location :=
  (working :: working.parents).map (·.entry Config.fileName)

/-- The files that a command and a configuration name. -/
def namedFiles (command : Command) (config : Config) : List Location :=
  let choice (c : RegistryChoice) : List Location :=
    (c.registry.map Location.ofText).toList
  let own :=
    match command with
    | .outline tree => tree.toList
    | .validate tree c => tree.toList ++ choice c
    | .snapshot tree c _ _ => tree.toList ++ choice c
  let configured :=
    match config.registry with
    | some (.script script _) => [script]
    | _ => []
  own ++ config.tree.toList ++ configured

/-- The disk as far as a command may read it. -/
def gatherDisk (command : Command) : IO Disk := do
  let working := Location.ofText (← IO.currentDir).toString
  let d ← addFiles (.empty working) (settingsFiles working)
  match d.config with
  | .ok config => addFiles d (namedFiles command config)
  | .error _ => addFiles d (namedFiles command {})

/-- Writes the file that a command has written on its disk. -/
def writeOutput (command : Command) (d : Disk) : IO Unit := do
  match command with
  | .snapshot _ _ (some file) _ =>
    match d.read file with
    | .ok (.text text) => do
      IO.FS.createDirAll file.parent.toText
      IO.FS.writeFile file.toText text
    | _ => return
  | _ => return

/-- Reports the constraints that fail, a line for each. -/
def reportFailures (failures : List (String × String × String)) : IO Unit := do
  for (path, key, words) in failures do
    IO.eprintln (path ++ "  " ++ key ++ "  " ++ words)
  if !failures.isEmpty then IO.eprintln (toString failures.length ++ " failure(s)")

/-- Runs a command. -/
def run (command : Command) : IO Nat := do
  let d ← gatherDisk command
  let ended := command.run d []
  match ended with
  | .ok done => do
    writeOutput command done.disk
    IO.print done.output
  | .error e => do
    reportFailures e.failures
    if e.message?.isNone then IO.eprintln "The command failed."
  for line in ended.report do IO.eprintln line
  return ended.exitCode

/-- How the program is used. -/
def usage : String :=
  "Usage: show [TREE] | validate [TREE] | snapshot [TREE]\n"
    ++ "Options of validate and snapshot: --registry SOURCE, --name NAME\n"
    ++ "Options of snapshot: -o FILE or --output FILE, --indent NUMBER\n"

end LiveTree.Main

open LiveTree in
/-- Runs the command that the arguments write, and gives its exit code. -/
def main (arguments : List String) : IO UInt32 := do
  match Arguments.read arguments with
  | .ok command => return UInt32.ofNat (← Main.run command)
  | .error e => do
    match e with
    | .helpWanted => IO.print Main.usage
    | .misused => IO.eprint Main.usage
    return UInt32.ofNat (Trouble.usage e).exitCode
