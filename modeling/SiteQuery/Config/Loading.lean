import SiteQuery.Config
import SiteQuery.Files.System
import SiteQuery.Text.Visible

/-!
Finding the configuration of a project: the nearest file above a directory, but not beyond the top of a
repository. Without one the directory itself is the root and all is as by default.
-/

namespace SiteQuery.Config

inductive LoadError where
  | unreadable (path : Path) (cause : FileError)
  | notConfig (path : Path)
  | invalid (fault : ConfigFault)
deriving DecidableEq, Repr

def notConfigReason : String := "not a configuration"

/-- What is wrong, and after that its causes. -/
def LoadError.messages : LoadError → List String
  | unreadable path cause => ["Failed to read config file: " ++ visible path.text, cause.message]
  | notConfig path => ["Failed to parse config file: " ++ visible path.text, notConfigReason]
  | invalid fault => fault.messages

structure Loaded where
  config : Config
  root : Path
  fromFile : Bool
deriving DecidableEq, Repr, Inhabited

def repositoryMark : String := ".git"

/-- The first configuration file among these directories, up to a repository. -/
def findAmong (system : FileSystem) : List Path → Option Path
  | [] => none
  | directory :: rest =>
    let file := directory.join ⟨fileName⟩
    if system.hasEntry file then some file
    else if system.hasEntry (directory.join ⟨repositoryMark⟩) then none
    else findAmong system rest

def find? (system : FileSystem) (start : Path) : Option Path := findAmong system start.ancestors

def read (system : FileSystem) (file : Path) : Except LoadError Config :=
  match system.readText file with
  | .error cause => .error (.unreadable file cause)
  | .ok text =>
    match parse? text with
    | none => .error (.notConfig file)
    | some config =>
      match config.check with
      | .error fault => .error (.invalid fault)
      | .ok () => .ok config

def load (system : FileSystem) (start : Path) : Except LoadError Loaded :=
  match find? system start with
  | none => .ok ⟨{}, start, false⟩
  | some file => (read system file).map fun config => ⟨config, file.parent?.getD start, true⟩

end SiteQuery.Config
