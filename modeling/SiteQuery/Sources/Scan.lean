import SiteQuery.Files.System
import SiteQuery.Sorting
import SiteQuery.Sources.Filter

/-!
The source files below a directory.

The walk does not enter hidden directories, nor those that hold no sources of the project; the directory it
starts from is entered whatever its name.
-/

namespace SiteQuery.SourceFilter

def isPruned (name : String) : Entry → Bool
  | .file _ _ => false
  | .directory _ => name.toList.head? == some '.' || skippedDirectories.contains name

mutual

def walk (filter : SourceFilter) (path : Path) : Entry → List Path
  | .file _ _ => if filter.isSource path then [path] else []
  | .directory entries => walkIn filter path entries

def walkIn (filter : SourceFilter) (path : Path) : List (String × Entry) → List Path
  | [] => []
  | (name, entry) :: rest =>
    let inner := path.join ⟨name⟩
    let found := if isPruned name entry || filter.isIgnored inner then [] else walk filter inner entry
    found ++ walkIn filter path rest

end

/-- In the order of paths. -/
def scan (filter : SourceFilter) (system : FileSystem) (base : Path) : Except FileError (List Path) := do
  let entry ← system.entry base
  let found := if filter.isIgnored base then [] else filter.walk base entry
  return sorted (fun a b => a.compare b != .gt) found

end SiteQuery.SourceFilter
