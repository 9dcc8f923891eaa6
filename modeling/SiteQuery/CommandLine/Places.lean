import SiteQuery.CommandLine.Run

/-!
What a run looks at on a disk: first the directories that lead to the root of the project, then what the
configuration and the command name.
-/

namespace SiteQuery.CommandLine

/-- A place with what is there, or with all that is below it. -/
structure Place where
  path : Path
  isWhole : Bool := false
deriving DecidableEq, Repr

namespace Place

/-- A directory with what can decide on the configuration in it. -/
def marksOf (directory : Path) : List Place :=
  let marks := [Config.fileName, Config.repositoryMark]
  ⟨directory, false⟩ :: marks.map fun name => ⟨directory.join ⟨name⟩, false⟩

def marksAbove (path : Path) : List Place := path.ancestors.flatMap marksOf

end Place

namespace Command

def common? : Command → Option CommonArguments
  | compile common _ => some common
  | check common => some common
  | extract common _ => some common
  | watch common => some common
  | init => none

/-- What is needed to find the configuration. -/
def marks (command : Command) (directory : Path) : List Place :=
  match command.common? with
  | none => Place.marksOf directory
  | some common => Place.marksAbove (directory.join ⟨common.root⟩)

def projectPlaces (command : Command) (directory : Path) (settings : Settings) : List Place :=
  let locations := settings.config.locations settings.root
  match command with
  | extract _ name =>
    let file := directory.join ⟨name⟩
    let artifacts := (file.parent?.getD directory).join ⟨Artifact.directoryName⟩
    file.ancestors.map (⟨·, false⟩) ++ [⟨artifacts, true⟩]
  | _ => [⟨locations.sources, true⟩, ⟨locations.schema, false⟩]

/-- What else is needed once the configuration is found in a system. -/
def places (command : Command) (system : FileSystem) (directory : Path) : List Place :=
  match command.common?.map (Settings.load system directory) with
  | some (.ok settings) => command.projectPlaces directory settings
  | _ => []

end Command

end SiteQuery.CommandLine
