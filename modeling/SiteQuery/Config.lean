import SiteQuery.Glob
import SiteQuery.Json.Reader
import SiteQuery.Path
import SiteQuery.Text.Blank

/-!
The configuration of a project.

`Config.parse?` reads it from JSON: a missing key has its default, an unknown key does not count, and a value
of another kind is refused. `Config.check` is what must hold of a configuration that is used.
-/

namespace SiteQuery

/-- A page that is known from the start, with its component file relative to the root of the project. -/
structure PageConfig where
  path : String
  component : String
deriving DecidableEq, Repr, Inhabited

structure Config where
  sourceRoot : String := "src"
  schemaPath : String := ".cache/schema.graphql"
  extensions : List String := ["js", "jsx", "ts", "tsx"]
  ignores : List String := []
  tagName : String := "graphql"
  generatedExtension : String := "graphql"
  bootstrapDebounce : Nat := 100
  pages : List PageConfig := []
deriving DecidableEq, Repr, Inhabited

namespace PageConfig

def keys : List String := ["path", "component"]

def ofJson? (json : Json) : Option PageConfig := do
  match ← json.fields? keys with
  | [some path, some component] => return ⟨← path.text?, ← component.text?⟩
  | _ => none

def toJson (page : PageConfig) : Json :=
  .ofEntries [("path", .ofText page.path), ("component", .ofText page.component)]

end PageConfig

namespace Config

def fileName : String := ".pagequeryrc.json"

def keys : List String :=
  ["sourceRoot", "schemaPath", "extensions", "ignores", "tagName", "generatedExtension", "bootstrapDebounceMs",
    "pages"]

/-- The greatest number of milliseconds. -/
def maxDebounce : Nat := 18446744073709551615

def debounce? (json : Json) : Option Nat := json.natural?.filter (· ≤ maxDebounce)

def pages? : Json → Option (List PageConfig)
  | .array items => items.mapM PageConfig.ofJson?
  | _ => none

/-- The value of a key, or its default where the key is missing. -/
def field {α : Type} (missing : α) (read : Json → Option α) : Option Json → Option α
  | none => some missing
  | some json => read json

def ofJson? (json : Json) : Option Config := do
  let missing : Config := {}
  match ← json.fields? keys with
  | [sourceRoot, schemaPath, extensions, ignores, tagName, generatedExtension, bootstrapDebounce, pages] =>
    return {
      sourceRoot := ← field missing.sourceRoot Json.text? sourceRoot
      schemaPath := ← field missing.schemaPath Json.text? schemaPath
      extensions := ← field missing.extensions Json.texts? extensions
      ignores := ← field missing.ignores Json.texts? ignores
      tagName := ← field missing.tagName Json.text? tagName
      generatedExtension := ← field missing.generatedExtension Json.text? generatedExtension
      bootstrapDebounce := ← field missing.bootstrapDebounce debounce? bootstrapDebounce
      pages := ← field missing.pages pages? pages }
  | _ => none

def parse? (text : String) : Option Config := (Json.parse? text).bind ofJson?

def toJson (config : Config) : Json :=
  .ofEntries [
    ("sourceRoot", .ofText config.sourceRoot),
    ("schemaPath", .ofText config.schemaPath),
    ("extensions", .ofTexts config.extensions),
    ("ignores", .ofTexts config.ignores),
    ("tagName", .ofText config.tagName),
    ("generatedExtension", .ofText config.generatedExtension),
    ("bootstrapDebounceMs", .ofNat config.bootstrapDebounce),
    ("pages", .array (config.pages.map PageConfig.toJson))]

def text (config : Config) : String := config.toJson.text

end Config

inductive ConfigFault where
  | invalidPattern (pattern : String) (fault : Glob.Fault)
  | noExtensions
  | blankTag
deriving DecidableEq, Repr

namespace ConfigFault

/-- What is wrong, and after that its cause. -/
def messages : ConfigFault → List String
  | invalidPattern pattern fault => [s!"Invalid glob pattern in 'ignores': \"{pattern}\"", fault.message]
  | noExtensions => ["'extensions' must list at least one source file extension"]
  | blankTag => ["'tagName' must not be empty"]

end ConfigFault

namespace Config

def checkPattern (pattern : String) : Except ConfigFault Unit :=
  match Glob.parse pattern with
  | .ok _ => .ok ()
  | .error fault => .error (.invalidPattern pattern fault)

def check (config : Config) : Except ConfigFault Unit := do
  config.ignores.forM checkPattern
  if config.extensions.isEmpty then throw .noExtensions
  if config.tagName.toList.all isBlank then throw .blankTag

end Config

/-- Where the sources and the schema of a project are. -/
structure Locations where
  sources : Path
  schema : Path
deriving DecidableEq, Repr, Inhabited

def Config.locations (config : Config) (root : Path) : Locations :=
  ⟨root.join ⟨config.sourceRoot⟩, root.join ⟨config.schemaPath⟩⟩

end SiteQuery
