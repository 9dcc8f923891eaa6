import SiteQuery.Path

/-!
Trees of files and directories, and what can go wrong with a path in one.

A location is the list of names that leads from the top of a tree to an entry.
-/

namespace SiteQuery

inductive FileError where
  | notFound
  | alreadyExists
  | notDirectory
  | isDirectory
  | notText
deriving DecidableEq, Repr

def FileError.message : FileError → String
  | notFound => "No such file or directory (os error 2)"
  | alreadyExists => "File exists (os error 17)"
  | notDirectory => "Not a directory (os error 20)"
  | isDirectory => "Is a directory (os error 21)"
  | notText => "stream did not contain valid UTF-8"

/-- What is in a file: a text, or bytes that are the encoding of none. -/
inductive Content where
  | text (value : String)
  | binary (bytes : List UInt8)
deriving DecidableEq, Repr, Inhabited

inductive Entry where
  /-- A file with the time of its last change. -/
  | file (content : Content) (modified : Nat)
  | directory (entries : List (String × Entry))
deriving Repr, Inhabited

namespace Entry

def lookup? (name : String) (entries : List (String × Entry)) : Option Entry :=
  (entries.find? (·.1 == name)).map (·.2)

/-- The entries with a new one in place of that of the same name. -/
def insert (name : String) (entry : Entry) : List (String × Entry) → List (String × Entry)
  | [] => [(name, entry)]
  | (other, old) :: rest =>
    if other = name then (name, entry) :: rest else (other, old) :: insert name entry rest

def erase (name : String) (entries : List (String × Entry)) : List (String × Entry) :=
  entries.filter (·.1 != name)

def at? : Entry → List String → Option Entry
  | entry, [] => some entry
  | .file _ _, _ :: _ => none
  | .directory entries, name :: rest => (lookup? name entries).bind (at? · rest)

/-- The tree with other entries in the directory at a location, if there is one. -/
def alter (change : List (String × Entry) → List (String × Entry)) : List String → Entry → Entry
  | _, .file content modified => .file content modified
  | [], .directory entries => .directory (change entries)
  | name :: rest, .directory entries =>
    match lookup? name entries with
    | none => .directory entries
    | some entry => .directory (insert name (alter change rest entry) entries)

mutual

/-- All files of a tree with their locations. -/
def files (location : List String) : Entry → List (List String × Content)
  | .file content _ => [(location, content)]
  | .directory entries => filesIn location entries

def filesIn (location : List String) : List (String × Entry) → List (List String × Content)
  | [] => []
  | (name, entry) :: rest => files (location ++ [name]) entry ++ filesIn location rest

end

end Entry

end SiteQuery
