import SiteQuery.Files.System

/-!
Parts of a disk as a file system, and what has changed in one.
-/

namespace SiteQuery

/-- The tree with an entry at a location, and with the directories that lead there. -/
def Entry.plant (entry : Entry) : List String → Entry → Entry
  | [], old =>
    match entry, old with
    | .directory [], .directory entries => .directory entries
    | _, _ => entry
  | name :: rest, old =>
    let entries :=
      match old with
      | .directory entries => entries
      | .file _ _ => []
    .directory (insert name (plant entry rest ((lookup? name entries).getD (.directory []))) entries)

namespace FileSystem

/-- The location that a path spells. -/
def spelled (path : Path) : List String :=
  path.components.foldl (fun location component =>
    match component with
    | .name name => location ++ [name]
    | .parent => location.dropLast
    | .root | .current => location) []

/-- An empty directory leaves a directory that is there as it is. -/
def plant (system : FileSystem) (path : Path) (entry : Entry) : FileSystem :=
  { system with tree := entry.plant (spelled path) system.tree }

/-- The files that are not in an earlier state, or not with this content. -/
def changedSince (system before : FileSystem) : List (Path × Content) :=
  let isNew (location : List String) (content : Content) : Bool :=
    match before.tree.at? location with
    | some (.file old _) => old != content
    | _ => true
  let files := (system.tree.files []).filter fun (location, content) => isNew location content
  files.map fun (location, content) => (pathOf location, content)

end FileSystem

end SiteQuery
