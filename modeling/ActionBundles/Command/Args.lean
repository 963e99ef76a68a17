import ActionBundles.Text.Basic

/-!
# The command line

`Command.parse` turns arguments into a command. The first argument that is no option names the
command; what follows it belongs to the command. Options may stand before and after the model that a
command takes, and after a double dash there are no options any more.

An option that takes a value gets it from the argument after it or after an equals sign. Its value
is settled when the next option, the model or the end is met, so faults of the arguments before come
first, but an option that is not known is a fault at once.
-/

namespace ActionBundles

/-- Why arguments name no command to run. -/
inductive UsageError where
  /-- Help is asked for. -/
  | help
  /-- The version is asked for. -/
  | version
  /-- There are no arguments. -/
  | nothing
  /-- There are options, but no command. -/
  | missingCommand
  /-- There is no such command. -/
  | unknownCommand
  /-- There is no such option, or an argument too many. -/
  | unknownArgument
  /-- What the command needs is missing. -/
  | missingArgument
  /-- Arguments exclude each other, or an option comes twice. -/
  | conflict
  /-- A value is missing or empty. -/
  | badValue
  /-- An option that takes no value has one. -/
  | unwantedValue
  deriving DecidableEq

/-- The exit code for arguments that name no command. -/
def UsageError.exitCode : UsageError → Nat
  | .help => 0
  | .version => 0
  | _ => 2

/-- What to do. -/
inductive Command where
  /-- Set up a project. -/
  | init (root : Text) (force : Bool)
  /-- Generate the action of one model, or of all models if none is given. -/
  | generate (root : Text) (model : Option Text) (strict : Bool)
  /-- Validate a project. -/
  | validate (root : Text) (json : Bool)
  /-- Show a model. -/
  | inspect (model : Text) (strict : Bool)
  deriving DecidableEq

namespace Command

/-! ### What each command takes -/

/-- An option without a value. -/
inductive Flag where
  | help
  | version
  | verbose
  | force
  | all
  | strict
  | json
  deriving DecidableEq

/-- The arguments that may be given. -/
structure Accepted where
  /-- The options without a value, by their names. -/
  flags : List (Text × Flag)
  /-- The same, by their letters. -/
  letters : List (Char × Flag)
  /-- Whether there is an option for the root of the project. -/
  root : Bool := false
  /-- Whether there may be a model. -/
  model : Bool := false

/-- The commands by name. -/
inductive Name where
  | init
  | generate
  | validate
  | inspect
  deriving DecidableEq

/-- The names of the commands. -/
def Name.words : List (Text × Name) :=
  [("init", .init), ("generate", .generate), ("validate", .validate), ("inspect", .inspect)]

/-- The word that asks for help instead of a command. -/
def helpWord : Text := "help"

/-- Whether a word stands where a command is named. -/
def isCommandWord (word : Text) : Bool := word = helpWord || (Name.words.lookup word).isSome

/-- What may be given before a command. -/
def acceptedFirst : Accepted where
  flags := [("help", .help), ("version", .version), ("verbose", .verbose)]
  letters := [('h', .help), ('V', .version)]

/-- What may be given to a command. -/
def Name.accepted (name : Name) : Accepted :=
  let common : List (Text × Flag) := [("help", .help), ("verbose", .verbose)]
  let letters : List (Char × Flag) := [('h', .help)]
  match name with
  | .init => { flags := ("force", .force) :: common, letters, root := true }
  | .generate =>
    { flags := ("all", .all) :: ("generate-all", .all) :: ("strict", .strict) :: common
      letters, root := true, model := true }
  | .validate => { flags := ("json", .json) :: common, letters, root := true }
  | .inspect => { flags := ("strict", .strict) :: common, letters, model := true }

/-! ### Arguments one by one -/

/-- A value that is not settled yet. -/
inductive Pending where
  /-- The value of the option for the root, once there is one. -/
  | root (value : Option Text)
  /-- The model. -/
  | model (value : Text)
  deriving DecidableEq

/-- What has been given so far. -/
structure Given where
  flags : List Flag := []
  root : Option Text := none
  model : Option Text := none
  pending : Option Pending := none
  deriving DecidableEq

namespace Given

/-- Gives the root of the project. -/
def setRoot (g : Given) (value : Text) : Except UsageError Given :=
  if g.root.isSome then .error .conflict
  else if value = [] then .error .badValue
  else .ok { g with root := some value }

/-- Settles the value that is not settled yet. -/
def settle (g : Given) : Except UsageError Given :=
  let settled := { g with pending := none }
  match g.pending with
  | none => .ok settled
  | some (.root none) => .error .badValue
  | some (.root (some value)) => settled.setRoot value
  | some (.model value) =>
    if value = [] then .error .badValue else .ok { settled with model := some value }

/-- Gives an option without a value. -/
def addFlag (g : Given) (flag : Flag) : Except UsageError Given := do
  let g ← g.settle
  match flag with
  | .help => throw .help
  | .version => throw .version
  | _ => if flag ∈ g.flags then throw .conflict else return { g with flags := flag :: g.flags }

/-- Gives options by their letters. -/
def addLetters (a : Accepted) (g : Given) : Text → Except UsageError Given
  | [] => .ok g
  | letter :: rest =>
    match a.letters.lookup letter with
    | none => .error .unknownArgument
    | some flag => (g.addFlag flag).bind fun g => addLetters a g rest

/-- Gives an option by its name, with the value after its equals sign if there is one. -/
def addNamed (a : Accepted) (g : Given) (name : Text) (value : Option Text) :
    Except UsageError Given :=
  match a.flags.lookup name with
  | some flag => if value.isSome then .error .unwantedValue else g.addFlag flag
  | none =>
    if a.root && name = "project-root".toList then do
      let g ← g.settle
      match value with
      | some value => g.setRoot value
      | none => return { g with pending := some (.root none) }
    else .error .unknownArgument

/-- Gives an argument that is no option. -/
def addPlain (a : Accepted) (g : Given) (arg : Text) : Except UsageError Given :=
  let hasModel := g.model.isSome || g.pending matches some (.model _)
  if a.model && !hasModel then
    g.settle.map fun g => { g with pending := some (.model arg) }
  else .error .unknownArgument

/-- Gives an argument that may be an option, and not the double dash. -/
def add (a : Accepted) (g : Given) (arg : Text) : Except UsageError Given :=
  match arg with
  | '-' :: '-' :: rest =>
    match Text.splitOnce '=' rest with
    | some (name, value) => g.addNamed a name (some value)
    | none => g.addNamed a rest none
  | '-' :: letter :: rest => g.addLetters a (letter :: rest)
  | _ =>
    if g.pending = some (.root none) then .ok { g with pending := some (.root (some arg)) }
    else g.addPlain a arg

/-- Gives arguments, none of which is an option if `literal` is set. -/
def addAll (a : Accepted) (literal : Bool) (g : Given) : List Text → Except UsageError Given
  | [] => g.settle
  | arg :: rest =>
    if literal then (g.addPlain a arg).bind fun g => g.addAll a true rest
    else if arg = ['-', '-'] then g.addAll a true rest
    else (g.add a arg).bind fun g => g.addAll a false rest

end Given

/-! ### Commands -/

/-- The command of a name with what has been given to it. -/
def ofGiven (name : Name) (g : Given) : Except UsageError Command :=
  let root := g.root.getD ['.']
  let has (flag : Flag) : Bool := flag ∈ g.flags
  match name with
  | .init => .ok (.init root (has .force))
  | .generate =>
    match g.model with
    | some model =>
      if has .all then .error .conflict else .ok (.generate root (some model) (has .strict))
    | none => if has .all then .ok (.generate root none (has .strict)) else .error .missingArgument
  | .validate => .ok (.validate root (has .json))
  | .inspect =>
    match g.model with
    | some model => .ok (.inspect model (has .strict))
    | none => .error .missingArgument

/-- What comes of the words after the word for help: only names of single commands have help. -/
def helpOn : List Text → UsageError
  | [] => .help
  | [word] => if isCommandWord word then .help else .unknownCommand
  | _ => .unknownCommand

/-- The command of arguments, some of which have been given before it; none of the others is an
option if `literal` is set. -/
def parseFrom (literal : Bool) (g : Given) : List Text → Except UsageError Command
  | [] => .error (if g.flags = [] then .nothing else .missingCommand)
  | arg :: rest =>
    if literal then .error (if isCommandWord arg then .unknownArgument else .unknownCommand)
    else if arg = helpWord then .error (helpOn rest)
    else
      match Name.words.lookup arg with
      | some name => (({} : Given).addAll name.accepted false rest).bind (ofGiven name)
      | none =>
        if arg = ['-', '-'] then parseFrom true g rest
        else
          match arg with
          | '-' :: _ :: _ => (g.add acceptedFirst arg).bind fun g => parseFrom false g rest
          | _ => .error .unknownCommand

/-- The command of arguments. -/
def parse (args : List Text) : Except UsageError Command := parseFrom false {} args

end Command

end ActionBundles
