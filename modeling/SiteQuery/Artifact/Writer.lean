import SiteQuery.Artifact
import SiteQuery.Compilation.Documents
import SiteQuery.Files.System

/-!
Writing the artifacts of compiled queries. A file that holds the text already is left as it is.
-/

namespace SiteQuery.Artifact

open Compilation

def isCurrent (system : FileSystem) (path : Path) (text : String) : Bool :=
  match system.readText path with
  | .ok existing => existing == text
  | .error _ => false

/-- The file with the directories that it needs. Directories stay even where the file cannot be written. -/
def write (system : FileSystem) (path : Path) (text : String) : FileSystem × Except FileError Unit :=
  let made := (path.parent?.map system.makeDirectories).getD (.ok system)
  match made with
  | .error error => (system, .error error)
  | .ok system =>
    match system.writeText path text with
    | .error error => (system, .error error)
    | .ok system => (system, .ok ())

/-- Writes in order, up to the first failure; gives the number of files that changed. -/
def writeQueries (extension : String) (system : FileSystem) :
    List CompiledQuery → FileSystem × Except FileError Nat
  | [] => (system, .ok 0)
  | query :: rest =>
    let target := path query.path query.name extension
    if isCurrent system target query.text then writeQueries extension system rest
    else
      match write system target query.text with
      | (system, .error error) => (system, .error error)
      | (system, .ok ()) =>
        let (system, others) := writeQueries extension system rest
        (system, others.map (· + 1))

def writeAll (extension : String) (system : FileSystem) (compiled : CompiledQueries) :
    FileSystem × Except FileError Nat :=
  writeQueries extension system compiled.all

end SiteQuery.Artifact
