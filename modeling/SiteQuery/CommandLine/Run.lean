import SiteQuery.Artifact.Extraction
import SiteQuery.Artifact.Writer
import SiteQuery.CommandLine.Help
import SiteQuery.CommandLine.Problem
import SiteQuery.Config.Loading

/-!
Running the program on a file system: what it prints, its exit code, and the files afterwards.
-/

namespace SiteQuery.CommandLine

open Compilation

/-- Why a command could not be run. -/
inductive Failure where
  | invalidRoot (root : String) (cause : FileError)
  | config (error : Config.LoadError)
  | compile (error : CompileError)
  | artifacts (cause : FileError)
  | unresolved (file : String) (cause : FileError)
  | extract (error : Artifact.ExtractError)
  | init (cause : FileError)
  | watch
deriving Repr

namespace Failure

def messages : Failure → List String
  | invalidRoot root cause => ["Invalid project root: " ++ visible root, cause.message]
  | config error => error.messages
  | compile error => error.message :: error.causes
  | artifacts cause => ["Failed to write generated artifacts", cause.message]
  | unresolved file cause => ["Failed to resolve " ++ visible file, cause.message]
  | extract error => error.message :: error.causes
  | init cause => [s!"Failed to write {Config.fileName}", cause.message]
  | watch => ["Failed to create file watcher"]

def text (failure : Failure) : String := "Error: " ++ ": ".intercalate failure.messages ++ "\n"

end Failure

/-- What a run prints, and its exit code: 0 for success, 1 for problems of queries, 2 where it could not run. -/
structure Output where
  code : Nat
  output : String := ""
  errors : String := ""
deriving DecidableEq, Repr, Inhabited

namespace Output

def success (output : String) : Output := { code := 0, output }

def ofProblems (root : Path) (problems : List Problem) : Output where
  code := if problems.isEmpty then 0 else 1
  output := reportText root problems

def failure (failure : Failure) : Output := { code := 2, errors := failure.text }

end Output

/-- The configuration that a command works with. -/
structure Settings where
  config : Config
  root : Path
  /-- What is said beforehand on the configuration. -/
  note : String

namespace Settings

def compiler (settings : Settings) : QueryCompiler :=
  .ofConfig (settings.config.locations settings.root) settings.config

def extractOptions (settings : Settings) : Artifact.ExtractOptions :=
  ⟨settings.config.tagName, settings.config.generatedExtension⟩

def override (common : CommonArguments) (config : Config) : Config :=
  { config with
    sourceRoot := common.sourceRoot?.getD config.sourceRoot
    schemaPath := common.schema?.getD config.schemaPath }

def load (system : FileSystem) (directory : Path) (common : CommonArguments) : Except Failure Settings :=
  match system.canonical (directory.join ⟨common.root⟩) with
  | .error cause => .error (.invalidRoot common.root cause)
  | .ok start =>
    match Config.load system start with
    | .error error => .error (.config error)
    | .ok loaded =>
      let note :=
        if common.isVerbose && !loaded.fromFile then
          s!"Note: No {Config.fileName} found, using default configuration\n"
        else ""
      .ok ⟨override common loaded.config, loaded.root, note⟩

/-- The output of a command after what is said beforehand. -/
def noted (settings : Settings) (output : Output) : Output :=
  { output with errors := settings.note ++ output.errors }

end Settings

def queryJson (query : CompiledQuery) : Json :=
  .ofEntries [("name", .ofText query.name), ("path", .ofText query.path.text), ("text", .ofText query.text)]

def queriesText (compiled : CompiledQueries) : String :=
  (Json.array (compiled.all.map queryJson)).text ++ "\n"

def extractedText (query? : Option Artifact.ExtractedQuery) : String :=
  (Json.ofEntries (query?.toList.map fun query => (query.binding, .ofText query.text))).text ++ "\n"

def compile (settings : Settings) (asJson : Bool) (system : FileSystem) : FileSystem × Output :=
  match (settings.compiler.compileAll system).1 with
  | .error error =>
    match Problem.ofCompileError? error with
    | some problems => (system, .ofProblems settings.root problems)
    | none => (system, .failure (.compile error))
  | .ok compiled =>
    match Artifact.writeAll settings.config.generatedExtension system compiled with
    | (system, .error cause) => (system, .failure (.artifacts cause))
    | (system, .ok written) =>
      let text := if asJson then queriesText compiled else compiledText settings.root compiled written
      (system, .success text)

/-- All problems of a project, with the number of queries that compile. -/
def findProblems (settings : Settings) (system : FileSystem) : Except CompileError (List Problem × Nat) :=
  match (settings.compiler.compileAll system).1 with
  | .ok compiled => .ok ([], compiled.all.length)
  | .error error =>
    match Problem.ofCompileError? error with
    | some problems => .ok (problems, 0)
    | none => .error error

def checkProject (settings : Settings) (system : FileSystem) : Except CompileError Output := do
  let (problems, queries) ← findProblems settings system
  let files ← settings.compiler.sourceFiles system
  let found := files.filterMap (Problem.ofSource? settings.config.tagName system)
  let problems := Problem.withoutRepeats (Problem.sort (problems ++ found))
  if problems.isEmpty then return .success (successText files.length queries)
  else return .ofProblems settings.root problems

def check (settings : Settings) (system : FileSystem) : Output :=
  match checkProject settings system with
  | .ok output => output
  | .error error => .failure (.compile error)

def extract (settings : Settings) (system : FileSystem) (directory : Path) (file : String) : Output :=
  match system.canonical (directory.join ⟨file⟩) with
  | .error cause => .failure (.unresolved file cause)
  | .ok path =>
    match Artifact.extractQuery system settings.extractOptions path with
    | .error error => .failure (.extract error)
    | .ok query? => .success (extractedText query?)

def init (system : FileSystem) (directory : Path) : FileSystem × Output :=
  let file := directory.join ⟨Config.fileName⟩
  if system.hasEntry file then (system, { code := 1, errors := s!"Error: {Config.fileName} already exists\n" })
  else
    match system.writeText file ({} : Config).text with
    | .error cause => (system, .failure (.init cause))
    | .ok system => (system, .success s!"✓ Created {Config.fileName}\n")

def withSettings (system : FileSystem) (directory : Path) (common : CommonArguments)
    (command : Settings → FileSystem × Output) : FileSystem × Output :=
  match Settings.load system directory common with
  | .error failure => (system, .failure failure)
  | .ok settings =>
    let (system, output) := command settings
    (system, settings.noted output)

def runCommand (system : FileSystem) (directory : Path) : Command → FileSystem × Output
  | .compile common asJson => withSettings system directory common fun settings => compile settings asJson system
  | .check common => withSettings system directory common fun settings => (system, check settings system)
  | .extract common file =>
    withSettings system directory common fun settings => (system, extract settings system directory file)
  | .watch common => withSettings system directory common fun _ => (system, .failure .watch)
  | .init => init system directory

/-- A run of the program in a directory. -/
def run (system : FileSystem) (directory : Path) (arguments : List String) : FileSystem × Output :=
  match parseArguments arguments with
  | .ok (some command) => runCommand system directory command
  | .ok none => (system, .success (HelpTopic.text .program))
  | .error (.help topic) => (system, .success topic.text)
  | .error .version => (system, .success versionText)
  | .error (.usage fault) => (system, { code := 2, errors := fault.message })

end SiteQuery.CommandLine
