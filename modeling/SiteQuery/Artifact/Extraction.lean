import SiteQuery.Artifact
import SiteQuery.Files.System
import SiteQuery.Script.Tag

/-!
The compiled query that a source file exports, read back from its artifact.

The query is that of the template that the compiler takes too, under the name that the template is bound to.
-/

namespace SiteQuery.Artifact

open Graphql Script

/-- The name to which a page binds its query. -/
def pageQueryBinding : String := "pageQuery"

structure ExtractOptions where
  tag : String := "graphql"
  extension : String := "graphql"
deriving DecidableEq, Repr, Inhabited

inductive ExtractError where
  | unreadable (path : Path) (cause : FileError)
  | notModule (path : Path)
  | tag (path : Path) (error : TagError)
  | missingArtifact (name : String) (path : Path) (cause : FileError)
deriving Repr

namespace ExtractError

def message : ExtractError → String
  | unreadable path _ => "Failed to read \x60" ++ path.text ++ "\x60"
  | notModule path => "Failed to parse \x60" ++ path.text ++ "\x60: " ++ Script.notModuleReason
  | tag path error => "Unsupported graphql tag in \x60" ++ path.text ++ "\x60: " ++ error.message
  | missingArtifact name path _ =>
    "Compiled artifact \x60" ++ path.text ++ "\x60 for query \x60" ++ name
      ++ "\x60 could not be read; the compiler has not run for this file"

def causes : ExtractError → List String
  | unreadable _ cause => [cause.message]
  | notModule _ => []
  | tag _ error => [error.message]
  | missingArtifact _ _ cause => [cause.message]

end ExtractError

structure ExtractedQuery where
  binding : String
  text : String
deriving DecidableEq, Repr, Inhabited

/-- The name of the first definition of a document, if that is a query. -/
def queryName? (document : Document) : Option String :=
  match document.first? with
  | some (.operation operation) => if operation.kind = .query then operation.name? else none
  | _ => none

/-- The compiled query of the template that a module contributes. -/
def extractFrom (system : FileSystem) (options : ExtractOptions) (file : Path) (source : Module) :
    Except ExtractError (Option ExtractedQuery) :=
  match source.primaryTag? options.tag with
  | none => .ok none
  | some (found, _) =>
    match found.document with
    | .error error => .error (.tag file error)
    | .ok document =>
      match found.binding?, queryName? document with
      | some binding, some name =>
        let artifact := path file name options.extension
        match system.readText artifact with
        | .error cause => .error (.missingArtifact name artifact cause)
        | .ok text => .ok (some ⟨binding, trimmed text⟩)
      | _, _ => .ok none

def extractQuery (system : FileSystem) (options : ExtractOptions) (file : Path) :
    Except ExtractError (Option ExtractedQuery) :=
  match system.readText file with
  | .error cause => .error (.unreadable file cause)
  | .ok code =>
    match Module.parse? (.ofPath file) code with
    | none => .error (.notModule file)
    | some source => extractFrom system options file source

/-- The query of a page, if its file exports one. -/
def extractPageQuery (system : FileSystem) (options : ExtractOptions) (file : Path) :
    Except ExtractError (Option String) := do
  match ← extractQuery system options file with
  | none => return none
  | some query => return if query.binding = pageQueryBinding then some query.text else none

end SiteQuery.Artifact
