/-!
The arguments of the program.

An option takes the next argument for its value unless that looks like an option; the value counts only once
something else follows or the arguments end. Whoever finds a fault in what follows first therefore need not
report the value.
-/

namespace SiteQuery.CommandLine

inductive CommandName where
  | compile
  | check
  | extract
  | watch
  | init
deriving DecidableEq, Repr

def CommandName.text : CommandName → String
  | compile => "compile"
  | check => "check"
  | extract => "extract"
  | watch => "watch"
  | init => "init"

def CommandName.all : List CommandName := [.compile, .check, .extract, .watch, .init]

def CommandName.ofText? (text : String) : Option CommandName := all.find? (·.text == text)

inductive HelpTopic where
  | program
  | command (name : CommandName)
  | help
deriving DecidableEq, Repr

inductive UsageFault where
  | argumentConflict
  | tooManyValues
  | unknownArgument
  | missingRequiredArgument
  | invalidSubcommand
  | invalidValue
deriving DecidableEq, Repr

/-- Why arguments lead to no command to be run. -/
inductive Interruption where
  | help (topic : HelpTopic)
  | version
  | usage (fault : UsageFault)
deriving DecidableEq, Repr

structure CommonArguments where
  root : String := "."
  sourceRoot? : Option String := none
  schema? : Option String := none
  isVerbose : Bool := false
deriving DecidableEq, Repr, Inhabited

inductive Command where
  | compile (common : CommonArguments) (asJson : Bool)
  | check (common : CommonArguments)
  | extract (common : CommonArguments) (file : String)
  | watch (common : CommonArguments)
  | init
deriving DecidableEq, Repr

/-- What takes a value. -/
inductive Setting where
  | root
  | sourceRoot
  | schema
  | file
deriving DecidableEq, Repr

inductive Flag where
  | verbose
  | json
deriving DecidableEq, Repr

/-- The arguments of a command so far. -/
structure Draft where
  values : List (Setting × String) := []
  flags : List Flag := []
  /-- A setting that has not been taken into account, with its value if that has come. -/
  pending? : Option (Setting × Option String) := none
  /-- Only values follow. -/
  isTrailing : Bool := false

namespace CommandName

def flag? (command : CommandName) (name : String) : Option Flag :=
  match command, name with
  | .init, _ => none
  | .compile, "json" => some .json
  | _, "verbose" => some .verbose
  | _, _ => none

def option? (command : CommandName) (name : String) : Option Setting :=
  match command, name with
  | .init, _ => none
  | _, "root" => some .root
  | _, "source-root" => some .sourceRoot
  | _, "schema" => some .schema
  | _, _ => none

end CommandName

abbrev Parsed := Except Interruption

def fault {α : Type} (fault : UsageFault) : Parsed α := .error (.usage fault)

namespace Draft

/-- A path must not be empty; any other value may. -/
def set (draft : Draft) (setting : Setting) (value : String) : Parsed Draft :=
  if draft.values.any (·.1 == setting) then fault .argumentConflict
  else if value.isEmpty && (setting = .root || setting = .file) then fault .invalidValue
  else .ok { draft with values := draft.values ++ [(setting, value)] }

def settle (draft : Draft) : Parsed Draft :=
  match draft.pending? with
  | none => .ok draft
  | some (_, none) => fault .invalidValue
  | some (setting, some value) => { draft with pending? := none }.set setting value

def raise (draft : Draft) (flag : Flag) : Parsed Draft := do
  let draft ← draft.settle
  if draft.flags.contains flag then fault .argumentConflict
  else return { draft with flags := draft.flags ++ [flag] }

def takeLong (command : CommandName) (draft : Draft) (name : String) (value? : Option String) : Parsed Draft := do
  if name = "help" then
    if value?.isSome then fault .tooManyValues
    else
      let _ ← draft.settle
      throw (.help (.command command))
  else
    match command.flag? name, command.option? name with
    | some flag, _ => if value?.isSome then fault .tooManyValues else draft.raise flag
    | none, some setting =>
      let draft ← draft.settle
      match value? with
      | some value => draft.set setting value
      | none => return { draft with pending? := some (setting, none) }
    | none, none => fault .unknownArgument

def takeShorts (command : CommandName) (draft : Draft) : List Char → Parsed Draft
  | [] => .ok draft
  | c :: rest => do
    if c = 'h' then
      let _ ← draft.settle
      throw (.help (.command command))
    else if c = 'v' && (command.flag? "verbose").isSome then
      let draft ← draft.raise .verbose
      takeShorts command draft rest
    else fault .unknownArgument

/-- A value that belongs to no option. -/
def takePlain (command : CommandName) (draft : Draft) (value : String) : Parsed Draft := do
  let isTaken := draft.values.any (·.1 == .file) || (draft.pending?.map (·.1)) == some .file
  if command = .extract && !isTaken then
    let draft ← draft.settle
    return { draft with pending? := some (.file, some value) }
  else fault .unknownArgument

end Draft

/-- An argument by its looks. -/
inductive Shape where
  | separator
  | long (name : String) (value? : Option String)
  | shorts (letters : List Char)
  | plain

def Shape.ofText (text : String) : Shape :=
  match text.toList with
  | ['-', '-'] => .separator
  | '-' :: '-' :: rest =>
    let name := rest.takeWhile (· != '=')
    match rest.drop name.length with
    | [] => .long (String.ofList name) none
    | _ :: value => .long (String.ofList name) (some (String.ofList value))
  | '-' :: c :: rest => .shorts (c :: rest)
  | _ => .plain

namespace Draft

def take (command : CommandName) (draft : Draft) (argument : String) : Parsed Draft :=
  if draft.isTrailing then draft.takePlain command argument
  else
    match Shape.ofText argument with
    | .separator => .ok { draft with isTrailing := true }
    | .long name value? => draft.takeLong command name value?
    | .shorts letters => draft.takeShorts command letters
    | .plain =>
      match draft.pending? with
      | some (setting, none) => .ok { draft with pending? := some (setting, some argument) }
      | _ => draft.takePlain command argument

def value? (draft : Draft) (setting : Setting) : Option String :=
  (draft.values.find? (·.1 == setting)).map (·.2)

def common (draft : Draft) : CommonArguments where
  root := (draft.value? .root).getD "."
  sourceRoot? := draft.value? .sourceRoot
  schema? := draft.value? .schema
  isVerbose := draft.flags.contains .verbose

def finish (command : CommandName) (draft : Draft) : Parsed Command := do
  let draft ← draft.settle
  match command with
  | .compile => return .compile draft.common (draft.flags.contains .json)
  | .check => return .check draft.common
  | .watch => return .watch draft.common
  | .init => return .init
  | .extract =>
    match draft.value? .file with
    | some file => return .extract draft.common file
    | none => fault .missingRequiredArgument

end Draft

def parseCommand (name : CommandName) (arguments : List String) : Parsed Command := do
  let draft ← arguments.foldlM (Draft.take name) {}
  draft.finish name

def helpName : String := "help"

def parseHelp : List String → Interruption
  | [] => .help .program
  | [topic] =>
    match CommandName.ofText? topic with
    | some name => .help (.command name)
    | none => if topic = helpName then .help .help else .usage .invalidSubcommand
  | _ :: _ :: _ => .usage .invalidSubcommand

/-- What comes after the separator is a command in the wrong place or none at all. -/
def parseTrailing : List String → Parsed (Option Command)
  | [] => .ok none
  | argument :: _ =>
    if (CommandName.ofText? argument).isSome || argument = helpName then fault .unknownArgument
    else fault .invalidSubcommand

def interruption (argument : String) : Interruption :=
  match Shape.ofText argument with
  | .long "help" none => .help .program
  | .long "version" none => .version
  | .long "help" (some _) => .usage .tooManyValues
  | .long "version" (some _) => .usage .tooManyValues
  | .shorts ('h' :: _) => .help .program
  | .shorts ('V' :: _) => .version
  | .long _ _ | .shorts _ => .usage .unknownArgument
  | .separator | .plain => .usage .invalidSubcommand

/-- The command that the arguments ask for, if they name one. -/
def parseArguments : List String → Parsed (Option Command)
  | [] => .ok none
  | argument :: rest =>
    match CommandName.ofText? argument with
    | some name => (parseCommand name rest).map some
    | none =>
      if argument = helpName then .error (parseHelp rest)
      else if argument = "--" then parseTrailing rest
      else .error (interruption argument)

end SiteQuery.CommandLine
