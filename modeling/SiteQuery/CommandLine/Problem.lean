import SiteQuery.Compilation.Project
import SiteQuery.Script.Replacement
import SiteQuery.Sorting

/-!
Problems of queries, as they are reported.
-/

namespace SiteQuery.CommandLine

open Compilation Script

structure Problem where
  path : Path
  /-- A place in the text of the query. -/
  position? : Option Position
  rule : String
  message : String
deriving Repr, Inhabited

namespace Problem

def comparePositions : Option Position → Option Position → Ordering
  | none, none => .eq
  | none, some _ => .lt
  | some _, none => .gt
  | some a, some b => (Ord.compare a.line b.line).then (Ord.compare a.column b.column)

/-- By file, place, rule and message. -/
def compare (a b : Problem) : Ordering :=
  (a.path.compare b.path).then
    ((comparePositions a.position? b.position?).then
      ((Ord.compare a.rule b.rule).then (Ord.compare a.message b.message)))

def unparsed (path : Path) (message : String) : Problem := ⟨path, none, "parse-error", message⟩

def unsupportedTag (path : Path) (error : TagError) : Problem := ⟨path, none, "unsupported-tag", error.message⟩

/-- The problems in a failure to compile; none if the failure is not about the queries. -/
def ofCompileError? : CompileError → Option (List Problem)
  | .rejected rejection =>
    some (rejection.violations.map fun violation =>
      ⟨rejection.path, violation.position?, violation.rule.name, violation.fault.message⟩)
  | .tag path error => some [unsupportedTag path error]
  | .notModule path => some [unparsed path notModuleReason]
  | .schema _ | .scan _ _ | .unreadable _ _ => none

/-- What the build would refuse in a source file: a text that is no module, or the first tag that is not fit. -/
def ofSource? (tag : String) (system : FileSystem) (path : Path) : Option Problem :=
  match system.readText path with
  | .error cause => some (unparsed path cause.message)
  | .ok code =>
    if occurs tag.toList code.toList then
      match Module.parse? (.ofPath path) code with
      | none => some (unparsed path notModuleReason)
      | some source =>
        match source.replaceTags tag with
        | .error error => some (unsupportedTag path error)
        | .ok _ => none
    else none

def sort (problems : List Problem) : List Problem := sorted (fun a b => a.compare b != .gt) problems

/-- Of equal neighbours only the first. -/
def withoutRepeats : List Problem → List Problem
  | [] => []
  | [last] => [last]
  | first :: second :: rest =>
    if first.compare second == .eq then withoutRepeats (first :: rest)
    else first :: withoutRepeats (second :: rest)
termination_by problems => problems.length

def shownPath (root path : Path) : String := ((path.relativeTo? root).getD path).text

def text (root : Path) (problem : Problem) : String :=
  let note :=
    match problem.position? with
    | none => ""
    | some position => s!"   = note: query line {position.line}, column {position.column}\n"
  s!"error: \"{problem.message}\"  {problem.rule}\n  --> {shownPath root problem.path}\n{note}\n"

end Problem

/-- The count with its noun. -/
def counted (count : Nat) (one many : String) : String :=
  toString count ++ " " ++ (if count = 1 then one else many)

def reportText (root : Path) (problems : List Problem) : String :=
  if problems.isEmpty then ""
  else
    String.join ((Problem.sort problems).map (Problem.text root))
      ++ "✘ " ++ counted problems.length "problem" "problems" ++ "\n"

def successText (files queries : Nat) : String :=
  let queries := counted queries "query" "queries"
  let files := counted files "source file" "source files"
  s!"✓ Checked {queries} in {files} - no issues found\n"

def compiledText (root : Path) (compiled : CompiledQueries) (written : Nat) : String :=
  let ofFile (path : Path) (queries : List CompiledQuery) : String :=
    s!"{Problem.shownPath root path}\n" ++ String.join (queries.map fun query => s!"  ✓ {query.name}\n")
  let files := String.join (compiled.map fun (path, queries) => ofFile path queries)
  let queries := counted compiled.all.length "query" "queries"
  let artifacts := counted written "artifact" "artifacts"
  s!"{files}✓ Compiled {queries}, wrote {artifacts}\n"

end SiteQuery.CommandLine
