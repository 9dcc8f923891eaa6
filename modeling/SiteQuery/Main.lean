import SiteQuery.CommandLine.Places
import SiteQuery.Files.Snapshot

/-!
The program. What a run looks at is read from the disk beforehand, and what it has changed is written there.
-/

namespace SiteQuery

open CommandLine

def contentOf (bytes : ByteArray) : Content :=
  match String.fromUTF8? bytes with
  | some text => .text text
  | none => .binary bytes.toList

/-- Directories that are never searched stay empty, and links inside a directory are not followed. -/
partial def readEntry (path : Path) (isWhole : Bool) : IO Entry := do
  let place ← IO.FS.realPath path.text
  if !(← place.isDir) then return .file (contentOf (← IO.FS.readBinFile path.text)) 0
  if !isWhole then return .directory []
  let mut inner := #[]
  for found in ← place.readDir do
    if (← found.path.symlinkMetadata).type != .symlink then
      let name := found.fileName
      let isSearched := name.toList.head? != some '.' && name != "node_modules"
      inner := inner.push (name, ← readEntry (path.join ⟨name⟩) isSearched)
  return .directory inner.toList

/-- What cannot be read does not count as there. -/
def readEntry? (place : Place) : IO (Option Entry) := do
  try return some (← readEntry place.path place.isWhole) catch _ => return none

def readPlaces (system : FileSystem) (places : List Place) : IO FileSystem :=
  places.foldlM (fun system place => do
    match ← readEntry? place with
    | some entry => return system.plant place.path entry
    | none => return system) system

/-- What a run with these arguments needs. -/
def readSystem (directory : Path) (arguments : List String) : IO FileSystem := do
  match parseArguments arguments with
  | .ok (some command) =>
    let marked ← readPlaces {} (⟨directory, false⟩ :: command.marks directory)
    readPlaces marked (command.places marked directory)
  | _ => return {}

def writeFile (path : Path) (content : Content) : IO Unit := do
  if let some parent := path.parent? then IO.FS.createDirAll parent.text
  match content with
  | .text text => IO.FS.writeFile path.text text
  | .binary bytes => IO.FS.writeBinFile path.text ⟨bytes.toArray⟩

end SiteQuery

open SiteQuery in
def main (arguments : List String) : IO UInt32 := do
  let directory : Path := ⟨(← IO.currentDir).toString⟩
  let before ← readSystem directory arguments
  let (system, output) := CommandLine.run before directory arguments
  for (path, content) in system.changedSince before do writeFile path content
  IO.print output.output
  IO.eprint output.errors
  return UInt32.ofNat output.code
