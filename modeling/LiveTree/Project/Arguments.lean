import LiveTree.Entries
import LiveTree.Project.Location
import LiveTree.Text.Digit

/-! The arguments of the program: a command with its options and at most one tree file. Options
and arguments may come in any order, a lone `--` ends the options, and of an option that is given
more than once the last one counts. -/

namespace LiveTree

/-- What a command is told about the registry to use. -/
structure RegistryChoice where
  /-- A script, or a module and a name in it. -/
  registry : Option String := none
  /-- The name of the registry in a script. -/
  name : Option String := none
  deriving DecidableEq, Inhabited, Repr

/-- A command, with the tree file if one is given. -/
inductive Command where
  /-- Draw a tree. -/
  | outline (tree : Option Location)
  /-- Check every constraint of a tree. -/
  | validate (tree : Option Location) (choice : RegistryChoice)
  /-- Write the values of a tree, spread with so many blanks for each level. -/
  | snapshot (tree : Option Location) (choice : RegistryChoice) (output : Option Location)
    (indent : Int)
  deriving DecidableEq, Inhabited, Repr

/-- Why arguments are no command. -/
inductive UsageFault where
  | helpWanted
  | misused
  deriving DecidableEq, Inhabited, Repr

namespace Arguments

/-- The options. -/
inductive Name where
  | registry
  | name
  | output
  | indent
  | verbose
  | help
  deriving DecidableEq, Inhabited, Repr

/-- Whether an option is followed by a value. -/
def Name.takesValue : Name → Bool
  | verbose | help => false
  | _ => true

/-- The options that are known in a place, by their words and by their letters. -/
structure Known where
  words : List (String × Name)
  letters : List (Char × Name)

/-- The options before the command. -/
def Known.general : Known :=
  ⟨[("--verbose", .verbose), ("--no-verbose", .verbose), ("--help", .help)], []⟩

/-- The options of the commands that only read a tree. -/
def Known.plain : Known := ⟨[("--help", .help)], []⟩

/-- The options of the commands that evaluate. -/
def Known.evaluating : Known :=
  ⟨[("--registry", .registry), ("--name", .name), ("--help", .help)], []⟩

/-- The options of the commands that evaluate and write. -/
def Known.writing : Known :=
  ⟨[("--output", .output), ("--indent", .indent)] ++ Known.evaluating.words, [('o', .output)]⟩

/-- What one argument is as an option. -/
inductive Reading where
  | unknown
  | flag (option : Name)
  | valued (option : Name) (value : String)
  /-- The value is the next argument. -/
  | awaiting (option : Name)
  deriving DecidableEq, Inhabited, Repr

/-- Reads a letter with what stands right behind it. -/
def Known.readLetter (known : Known) : List Char → Reading
  | _ :: c :: rest =>
    match known.letters.find? fun p => p.1 = c with
    | none => .unknown
    | some (_, option) =>
      if rest.isEmpty then .awaiting option else .valued option (String.ofList rest)
  | _ => .unknown

/-- Reads an argument as an option. A word may have its value behind an equals sign. -/
def Known.read (known : Known) (cs : List Char) : Reading :=
  let word := cs.takeWhile (· ≠ '=')
  let value := cs.drop word.length
  match Entries.find (String.ofList word) known.words with
  | some option =>
    match option.takesValue, value with
    | true, [] => .awaiting option
    | true, _ :: rest => .valued option (String.ofList rest)
    | false, [] => .flag option
    | false, _ :: _ => .unknown
  | none => if ['-', '-'].isPrefixOf cs then .unknown else known.readLetter cs

/-- Whether an argument is meant as an option. A lone sign is not. -/
def isOption : List Char → Bool
  | '-' :: _ :: _ => true
  | _ => false

/-- What is given to a command: its options with their values, last one first, and the other
arguments. -/
structure Given where
  options : List (Name × String) := []
  others : List String := []

namespace Given

/-- The value of an option. -/
def value? (g : Given) (option : Name) : Option String :=
  (g.options.find? fun p => p.1 = option).map Prod.snd

/-- Adds an option. -/
def add (g : Given) (option : Name) (value : String) : Given :=
  { g with options := (option, value) :: g.options }

end Given

/-- Sorts arguments into options and others. -/
def Known.sort (known : Known) : List String → Given → Option Given
  | [], g => some g
  | argument :: rest, g =>
    if argument = "--" then some { g with others := g.others ++ rest }
    else if isOption argument.toList then
      match known.read argument.toList with
      | .unknown => none
      | .flag option => known.sort rest (g.add option "")
      | .valued option value => known.sort rest (g.add option value)
      | .awaiting option =>
        match rest with
        | [] => none
        | value :: rest => known.sort rest (g.add option value)
    else known.sort rest { g with others := g.others ++ [argument] }

/-- Reads the options before the command: whether help is wanted, and what follows them. -/
def leading (help : Bool) : List String → Option (Bool × List String)
  | [] => some (help, [])
  | argument :: rest =>
    if argument = "--" then some (help, rest)
    else if isOption argument.toList then
      match Known.general.read argument.toList with
      | .flag option => leading (help || option = .help) rest
      | _ => none
    else some (help, argument :: rest)

/-- The spread of a snapshot without a word about it. -/
def usualIndent : Int := 2

/-- What is told about the registry. -/
def Given.choice (g : Given) : RegistryChoice := ⟨g.value? .registry, g.value? .name⟩

/-- A command of what is given to it. -/
def build (known : Known) (arguments : List String)
    (command : Given → Option Location → Except UsageFault Command) : Except UsageFault Command :=
  match known.sort arguments {} with
  | none => .error .misused
  | some g =>
    if (g.value? .help).isSome then .error .helpWanted
    else match g.others with
      | [] => command g none
      | [tree] => command g (some (.ofText tree))
      | _ => .error .misused

/-- The command that arguments write. -/
def read (arguments : List String) : Except UsageFault Command :=
  match leading false arguments with
  | none => .error .misused
  | some (true, _) => .error .helpWanted
  | some (false, []) => .error .misused
  | some (false, command :: rest) =>
    match command with
    | "show" => build .plain rest fun _ tree => .ok (.outline tree)
    | "validate" => build .evaluating rest fun g tree => .ok (.validate tree g.choice)
    | "snapshot" => build .writing rest fun g tree =>
      match (g.value? .indent).elim (some usualIndent) Text.readInt? with
      | some indent =>
        .ok (.snapshot tree g.choice ((g.value? .output).map Location.ofText) indent)
      | none => .error .misused
    | _ => .error .misused

end Arguments

end LiveTree
