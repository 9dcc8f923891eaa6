import SiteQuery.Files.System
import SiteQuery.Graphql.Schema.Basic

/-!
The schema of a project, read again only when its file has changed.
-/

namespace SiteQuery.Graphql

/-- The schema in a file. -/
def Schema.load (system : FileSystem) (path : Path) : Except SchemaError Schema :=
  match system.readText path with
  | .error error => .error (.unreadable path.text error.message)
  | .ok text => Schema.parse text

end SiteQuery.Graphql

namespace SiteQuery.Compilation

open Graphql

/-- A schema with the number of the load that it comes from. -/
structure LoadedSchema where
  schema : Schema
  serial : Nat
deriving Repr, Inhabited

structure SchemaCache where
  path : Path
  /-- The last schema, with the time when its file had changed. -/
  cached? : Option (Nat × LoadedSchema) := none
  loads : Nat := 0
deriving Repr, Inhabited

namespace SchemaCache

def reload (cache : SchemaCache) (system : FileSystem) (modified? : Option Nat) :
    Except SchemaError LoadedSchema × SchemaCache :=
  match Schema.load system cache.path with
  | .error error => (.error error, cache)
  | .ok schema =>
    let loaded : LoadedSchema := ⟨schema, cache.loads⟩
    (.ok loaded, { cache with cached? := modified?.map (·, loaded), loads := cache.loads + 1 })

def load (cache : SchemaCache) (system : FileSystem) : Except SchemaError LoadedSchema × SchemaCache :=
  match system.modified cache.path with
  | .error error => (.error (.unreadable cache.path.text error.message), cache)
  | .ok modified? =>
    match cache.cached? with
    | some (time, loaded) => if some time = modified? then (.ok loaded, cache) else cache.reload system modified?
    | none => cache.reload system modified?

end SchemaCache

end SiteQuery.Compilation
