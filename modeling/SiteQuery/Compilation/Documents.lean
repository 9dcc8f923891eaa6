import SiteQuery.Graphql.Node.OfDocument
import SiteQuery.Graphql.Node.Text
import SiteQuery.Graphql.Selection.Normal
import SiteQuery.Graphql.Validation.Basic
import SiteQuery.Path

/-!
The documents of a project, compiled together: either every query compiles, or the first file with a fault is
reported with the violations found in it.
-/

namespace SiteQuery.Compilation

open Graphql

/-- The document that one source file contributes. -/
structure SourceDocument where
  path : Path
  document : Document
deriving Repr, Inhabited

structure CompiledQuery where
  name : String
  path : Path
  text : String
deriving DecidableEq, Repr, Inhabited

/-- Compiled queries by the file that defines them, in the order of paths. -/
abbrev CompiledQueries := List (Path × List CompiledQuery)

namespace CompiledQueries

def get? (compiled : CompiledQueries) (path : Path) : Option (List CompiledQuery) :=
  (compiled.find? (·.1.same path)).map (·.2)

/-- The query goes after those of its file. -/
def insert (query : CompiledQuery) : CompiledQueries → CompiledQueries
  | [] => [(query.path, [query])]
  | (path, queries) :: rest =>
    match query.path.compare path with
    | .lt => (query.path, [query]) :: (path, queries) :: rest
    | .eq => (path, queries ++ [query]) :: rest
    | .gt => (path, queries) :: insert query rest

def all (compiled : CompiledQueries) : List CompiledQuery := compiled.flatMap (·.2)

end CompiledQueries

/-- A file that cannot be compiled, and why. -/
structure Rejection where
  path : Path
  violations : List Violation
deriving Repr, Inhabited

def Rejection.message (rejection : Rejection) : String :=
  "GraphQL validation failed in \x60" ++ rejection.path.text ++ "\x60:"
    ++ String.join (rejection.violations.map fun violation => "\n  " ++ violation.text)

/-- The file of each name; the last definition counts. -/
def definitionPath? (sources : List SourceDocument) (name : String) : Option Path :=
  let entries := sources.flatMap fun source =>
    source.document.definitions.map fun definition => (definition.name?, source.path)
  (entries.reverse.find? (·.1 == some name)).map (·.2)

def fragmentTypes (sources : List SourceDocument) : FragmentTypes :=
  sources.flatMap fun source => FragmentTypes.ofDocument source.document

def addNode (path : Path) (context : Context) (node : Node) : Except Rejection Context :=
  match context.add node with
  | .ok context => .ok context
  | .error violation => .error ⟨path, [violation]⟩

/-- One document, validated and added to what came before. -/
def addDocument (schema : Schema) (types : FragmentTypes) (context : Context) (source : SourceDocument) :
    Except Rejection Context :=
  let violations := validate schema source.document types ViolatedRule.standard
  if violations.isEmpty then
    match Node.ofDocument schema source.document with
    | .error violations => .error ⟨source.path, violations⟩
    | .ok nodes => nodes.foldlM (addNode source.path) context
  else .error ⟨source.path, violations⟩

def samePath? : Option Path → Option Path → Bool
  | none, none => true
  | some a, some b => a.same b
  | _, _ => false

/-- The unknown fragments of the first file that has any. -/
def checkFragments (sources : List SourceDocument) (context : Context) : Except Rejection Unit :=
  match context.unknownFragments with
  | [] => .ok ()
  | unknown@((owner, _) :: _) =>
    let path? := definitionPath? sources owner
    let here := unknown.filter fun (other, _) => samePath? (definitionPath? sources other) path?
    .error ⟨path?.getD ⟨""⟩, here.map (·.2)⟩

def printedQuery? (sources : List SourceDocument) (printed : Context) (node : Node) : Option CompiledQuery :=
  match node with
  | .fragment _ => none
  | .root root =>
    match definitionPath? sources root.name, printed.rootText? root.name with
    | some path, some text => some ⟨root.name, path, text⟩
    | _, _ => none

def compileDocuments (schema : Schema) (sources : List SourceDocument) : Except Rejection CompiledQueries := do
  let context ← sources.foldlM (addDocument schema (fragmentTypes sources)) {}
  checkFragments sources context
  let queries := context.nodes.filterMap (printedQuery? sources context.normalize)
  return queries.foldl (fun compiled query => CompiledQueries.insert query compiled) []

end SiteQuery.Compilation
