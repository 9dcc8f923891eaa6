import SiteQuery.Files.Basic

/-!
A file system: a tree of files with paths into it.

`FileSystem.locate` follows a path from the top: each piece needs a directory to stand in, and `..` leaves the
directory that was entered last. The current directory plays no part, so a path is made absolute beforehand.
-/

namespace SiteQuery

structure FileSystem where
  tree : Entry := .directory []
  /-- The time of the next change. -/
  clock : Nat := 0
deriving Repr, Inhabited

namespace FileSystem

def step (tree : Entry) (location : List String) (piece : List Char) : Except FileError (List String) :=
  match tree.at? location with
  | none => .error .notFound
  | some (.file _ _) => .error .notDirectory
  | some (.directory entries) =>
    match Path.componentOf piece with
    | some (.name name) =>
      if (Entry.lookup? name entries).isSome then .ok (location ++ [name]) else .error .notFound
    | some .parent => .ok location.dropLast
    | _ => .ok location

def follow (system : FileSystem) (pieces : List (List Char)) : Except FileError (List String) :=
  pieces.foldlM (step system.tree) []

def locate (system : FileSystem) (path : Path) : Except FileError (List String) :=
  if path.text.isEmpty then .error .notFound else system.follow (Path.pieces [] path.text.toList)

def pathOf (location : List String) : Path := ⟨"/" ++ "/".intercalate location⟩

/-- The path without detours to what a path leads to. -/
def canonical (system : FileSystem) (path : Path) : Except FileError Path := do
  return pathOf (← system.locate path)

def entry (system : FileSystem) (path : Path) : Except FileError Entry := do
  match system.tree.at? (← system.locate path) with
  | some entry => return entry
  | none => throw .notFound

def hasEntry (system : FileSystem) (path : Path) : Bool := (system.entry path).isOk

def isDirectory (system : FileSystem) (path : Path) : Bool :=
  match system.entry path with
  | .ok (.directory _) => true
  | _ => false

def readText (system : FileSystem) (path : Path) : Except FileError String := do
  match ← system.entry path with
  | .file (.text text) _ => return text
  | .file (.binary _) _ => throw .notText
  | .directory _ => throw .isDirectory

/-- The time of the last change of a file; a directory has none that counts. -/
def modified (system : FileSystem) (path : Path) : Except FileError (Option Nat) := do
  match ← system.entry path with
  | .file _ modified => return some modified
  | .directory _ => return none

/-- The directory that a path ends in, and the last name. Without a name the path stands for a directory. -/
def target (system : FileSystem) (path : Path) : Except FileError (List String × Option String) := do
  let pieces := ((Path.pieces [] path.text.toList).reverse.dropWhile List.isEmpty).reverse
  let location ← system.follow pieces.dropLast
  match pieces.getLast?.map Path.componentOf, system.tree.at? location with
  | some (some (.name name)), some (.directory _) => return (location, some name)
  | some (some (.name _)), _ => throw .notDirectory
  | _, _ => return (location, none)

def makeDirectory (system : FileSystem) (path : Path) : Except FileError FileSystem := do
  match ← system.target path with
  | (location, some name) =>
    if (system.tree.at? (location ++ [name])).isSome then throw .alreadyExists
    else return { system with tree := system.tree.alter (Entry.insert name (.directory [])) location }
  | (_, none) => throw .alreadyExists

/-- Makes the first of these directories, and before it those of the others that it needs. -/
def makeFirst (system : FileSystem) : List Path → Except FileError FileSystem
  | [] => .error .notFound
  | path :: parents =>
    if path.text.isEmpty then .ok system
    else
      match system.makeDirectory path with
      | .ok made => .ok made
      | .error .notFound => do
        let system ← makeFirst system parents
        if system.isDirectory path then return system else system.makeDirectory path
      | .error error => if system.isDirectory path then .ok system else .error error

def makeDirectories (system : FileSystem) (path : Path) : Except FileError FileSystem :=
  system.makeFirst path.ancestors

def endsInSeparator (path : Path) : Bool := path.text.toList.getLast? == some '/'

def write (system : FileSystem) (path : Path) (content : Content) (modified : Nat) :
    Except FileError FileSystem := do
  match ← system.target path with
  | (_, none) => throw .isDirectory
  | (location, some name) =>
    match system.tree.at? (location ++ [name]), endsInSeparator path with
    | some (.directory _), _ => throw .isDirectory
    | _, true => throw .isDirectory
    | _, false =>
      let tree := system.tree.alter (Entry.insert name (.file content modified)) location
      return { system with tree }

/-- Writes a text at the present time. -/
def writeText (system : FileSystem) (path : Path) (text : String) : Except FileError FileSystem := do
  let written ← system.write path (.text text) system.clock
  return { written with clock := system.clock + 1 }

/-- Removes a file or a whole directory. -/
def remove (system : FileSystem) (path : Path) : Except FileError FileSystem := do
  match ← system.locate path with
  | [] => throw .isDirectory
  | location@(_ :: _) =>
    let name := location.getLastD ""
    return { system with tree := system.tree.alter (Entry.erase name) location.dropLast }

end FileSystem

end SiteQuery
