import SiteQuery.Artifact
import SiteQuery.Glob

/-!
Which files are sources, by their paths alone.
-/

namespace SiteQuery

structure SourceFilter where
  extensions : List String
  ignoredPaths : List Path
  ignoredPatterns : List Glob
deriving DecidableEq, Repr, Inhabited

namespace SourceFilter

def isPattern (text : String) : Bool := text.toList.any fun c => c == '*' || c == '?'

/-- Texts without wildcards are paths below the base, and a pattern that is none does not count. -/
def ofIgnores (base : Path) (extensions ignores : List String) : SourceFilter where
  extensions := extensions
  ignoredPaths := (ignores.filter (!isPattern ·)).map fun text => base.join ⟨text⟩
  ignoredPatterns := (ignores.filter isPattern).filterMap fun text => (Glob.parse text).toOption

def isIgnored (filter : SourceFilter) (path : Path) : Bool :=
  filter.ignoredPaths.any path.startsWith || filter.ignoredPatterns.any (·.isMatch path.text)

def skippedDirectories : List String := ["node_modules", Artifact.directoryName]

/-- Locks, backups and swap files of editors have the extensions of sources. A path without a name counts too. -/
def isTemporary (path : Path) : Bool :=
  match path.fileName? with
  | none => true
  | some name =>
    let letters := name.toList
    ".#".toList.isPrefixOf letters || letters.getLast? == some '~' || ".swp".toList.isSuffixOf letters

def isSkipped : Component → Bool
  | .name text => skippedDirectories.contains text
  | _ => false

def isSource (filter : SourceFilter) (path : Path) : Bool :=
  !isTemporary path && !filter.isIgnored path && !path.components.any isSkipped
    && path.extension?.any filter.extensions.contains

end SourceFilter

end SiteQuery
