import SiteQuery.Compilation.Documents
import SiteQuery.Compilation.SchemaCache
import SiteQuery.Config
import SiteQuery.Script.Tag
import SiteQuery.Sources.Scan

/-!
Compiling a whole project: the schema is loaded, every source file is read, and the documents in them are
compiled together. The first file in the order of paths that cannot be read ends the pass.
-/

namespace SiteQuery.Compilation

open Graphql Script

inductive CompileError where
  | schema (error : SchemaError)
  | scan (base : Path) (cause : FileError)
  | unreadable (path : Path) (cause : FileError)
  | notModule (path : Path)
  | tag (path : Path) (error : TagError)
  | rejected (rejection : Rejection)
deriving Repr

/-- What is wrong, and after that its causes. -/
def schemaMessages (error : SchemaError) : List String :=
  match error with
  | .unreadable _ reason => [error.message, reason]
  | .ungrammatical detail => [error.message, detail.message]
  | .invalid _ => [error.message]

namespace CompileError

def message : CompileError → String
  | schema error => error.message
  | scan base _ => "Failed to scan source files under \x60" ++ base.text ++ "\x60"
  | unreadable path _ => "Failed to read \x60" ++ path.text ++ "\x60"
  | notModule path => "Failed to parse \x60" ++ path.text ++ "\x60: " ++ notModuleReason
  | tag path error => "Unsupported graphql tag in \x60" ++ path.text ++ "\x60: " ++ error.message
  | rejected rejection => rejection.message

def causes : CompileError → List String
  | schema error => (schemaMessages error).drop 1
  | scan base cause => [s!"IO error for operation on {base.text}: {cause.message}", cause.message]
  | unreadable _ cause => [cause.message]
  | tag _ error => [error.message]
  | notModule _ | rejected _ => []

end CompileError

/-- Whether `part` stands in a text. -/
def occurs (part : List Char) : List Char → Bool
  | [] => part.isEmpty
  | c :: rest => part.isPrefixOf (c :: rest) || occurs part rest

/-- The document that a source file contributes. A text without the name of the tag is not parsed. -/
def sourceDocument? (tag : String) (path : Path) (code : String) :
    Except CompileError (Option SourceDocument) :=
  if occurs tag.toList code.toList then
    match Module.parse? (.ofPath path) code with
    | none => .error (.notModule path)
    | some parsed =>
      match parsed.primaryTag? tag with
      | none => .ok none
      | some (found, _) =>
        match found.document with
        | .error error => .error (.tag path error)
        | .ok document => .ok (some ⟨path, document⟩)
  else .ok none

structure QueryCompiler where
  sources : Path
  filter : SourceFilter
  tag : String
  schema : SchemaCache
deriving Repr, Inhabited

namespace QueryCompiler

def ofConfig (locations : Locations) (config : Config) : QueryCompiler where
  sources := locations.sources
  filter := .ofIgnores locations.sources config.extensions config.ignores
  tag := config.tagName
  schema := { path := locations.schema }

def sourceFiles (compiler : QueryCompiler) (system : FileSystem) : Except CompileError (List Path) :=
  match compiler.filter.scan system compiler.sources with
  | .error cause => .error (.scan compiler.sources cause)
  | .ok paths => .ok paths

def readSource (compiler : QueryCompiler) (system : FileSystem) (path : Path) :
    Except CompileError (Option SourceDocument) :=
  match system.readText path with
  | .error cause => .error (.unreadable path cause)
  | .ok code => sourceDocument? compiler.tag path code

/-- The documents of all sources, in the order of paths. -/
def sourceDocuments (compiler : QueryCompiler) (system : FileSystem) :
    Except CompileError (List SourceDocument) := do
  let paths ← compiler.sourceFiles system
  let found ← paths.mapM (compiler.readSource system)
  return found.filterMap id

def loadSchema (compiler : QueryCompiler) (system : FileSystem) :
    Except CompileError LoadedSchema × QueryCompiler :=
  match compiler.schema.load system with
  | (.error error, cache) => (.error (.schema error), { compiler with schema := cache })
  | (.ok loaded, cache) => (.ok loaded, { compiler with schema := cache })

def compileWith (compiler : QueryCompiler) (system : FileSystem) (schema : Schema) :
    Except CompileError CompiledQueries := do
  let sources ← compiler.sourceDocuments system
  match compileDocuments schema sources with
  | .error rejection => throw (.rejected rejection)
  | .ok compiled => return compiled

/-- One pass over the project. Only the schema is kept from one pass to the next. -/
def compileAll (compiler : QueryCompiler) (system : FileSystem) :
    Except CompileError CompiledQueries × QueryCompiler :=
  match compiler.loadSchema system with
  | (.error error, compiler) => (.error error, compiler)
  | (.ok loaded, compiler) => (compiler.compileWith system loaded.schema, compiler)

end QueryCompiler

end SiteQuery.Compilation
