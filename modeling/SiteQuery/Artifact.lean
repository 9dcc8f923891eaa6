import SiteQuery.Path

/-!
Artifacts: the files that hold compiled queries, in a directory of their own beside the source.
-/

namespace SiteQuery.Artifact

def directoryName : String := "__generated__"

def fileName (name extension : String) : String := s!"{name}.generated.{extension}"

/-- The artifact of the query `name` of a source file. -/
def path (source : Path) (name extension : String) : Path :=
  ((source.parent?.getD ⟨""⟩).join ⟨directoryName⟩).join ⟨fileName name extension⟩

end SiteQuery.Artifact
