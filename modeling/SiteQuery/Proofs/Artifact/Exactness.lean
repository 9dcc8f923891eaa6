import SiteQuery.Proofs.Artifact.Extraction
import SiteQuery.Proofs.Artifact.Rewriting
import SiteQuery.Proofs.Compilation.Unchanged

/-!
Artifacts of a scan that are written later.

Between the pass and the writing anything may have happened on the disk. If the writing succeeds, the artifacts are
there and all other files are as they were, and a pass does not see what was written unless it has opened the way to the
sources or to the schema: `writeAll_exact`.
-/

namespace SiteQuery.Artifact

open SiteQuery.Path FileSystem Compilation Graphql

/-- Queries were compiled from the sources of one state of the disk, and their artifacts were written in another. -/
structure WrittenLater (compiler : QueryCompiler) (scanned : FileSystem) (extension : String)
    (compiled : CompiledQueries) (system written : FileSystem) (count : Nat) : Prop where
  compiles : ∃ schema sources, compiler.sourceDocuments scanned = .ok sources ∧
    compileDocuments schema sources = .ok compiled
  wrote : writeAll extension system compiled = (written, .ok count)
  isWhole : '/' ∉ extension.toList

variable {compiler : QueryCompiler} {scanned system written : FileSystem} {extension : String}
  {compiled : CompiledQueries} {queries : List CompiledQuery} {query : CompiledQuery} {count : Nat} {file : Path}
  {location : List String}

theorem WrittenLater.of_toOption (compiles : (compiler.compileAll scanned).1.toOption = some compiled)
    (wrote : (writeAll extension system compiled).2.toOption = some count) (isWhole : '/' ∉ extension.toList) :
    WrittenLater compiler scanned extension compiled system (writeAll extension system compiled).1 count :=
  ⟨exists_sources (toOption_eq_some compiles), Prod.ext rfl (toOption_eq_some wrote), isWhole⟩

/-- Every source of the queries lies in a directory that is there, and the path is not one through artifacts. -/
def IsClear (system : FileSystem) (queries : List CompiledQuery) (file : Path) : Prop :=
  ∀ query ∈ queries, (∃ directory, LiesIn system query.path directory) ∧ .name directoryName ∉ file.components

theorem isCurrent_eq (system : FileSystem) (file : Path) (text : String) :
    isCurrent system file text = ((system.readText file).toOption == some text) := by
  rw [Bool.eq_iff_iff, isCurrent_iff, beq_iff_eq]
  cases system.readText file <;> simp [Except.toOption]

theorem exists_location_of_hasEntry (there : system.hasEntry file = true) :
    ∃ location, system.locate file = .ok location := by
  cases located : system.locate file with
  | error error => simp [hasEntry, entry, located, bind, Except.bind, Except.isOk, Except.toBool] at there
  | ok location => exact ⟨location, rfl⟩

theorem exists_directory_of_locate (writable : AreWritable extension queries) (member : query ∈ queries)
    (located : system.locate (path query.path query.name extension) = .ok location) :
    directoryName ∈ location.dropLast := by
  obtain ⟨directory, rfl⟩ :=
    exists_place_of_locate (writable.ends query member) (writable.areFileNames query member) located
  rw [place_eq, List.dropLast_concat]
  exact List.mem_append_right directory (List.mem_singleton_self directoryName)

theorem sameFiles_of_written (wrote : writeQueries extension system queries = (written, .ok count))
    (writable : AreWritable extension queries) : system.SameFiles written := by
  obtain ⟨-, -, kept⟩ := writeQueries_exact wrote writable
  intro location outside content modified
  refine (kept location fun query member located => outside ?_).file_iff
  exact exists_directory_of_locate writable member located

/-- Where the directories of all sources are there, only directories of artifacts are made. -/
theorem locate_of_isClear (wrote : writeQueries extension system queries = (written, .ok count))
    (writable : AreWritable extension queries) (clear : IsClear system queries file) :
    written.locate file = system.locate file := by
  cases queries with
  | nil =>
    -- Nothing is written, and nothing is known of the path.
    cases wrote
    rfl
  | cons query rest =>
    have notThrough := (clear query List.mem_cons_self).2
    obtain ⟨-, -, same⟩ := writeQueries_spec wrote writable.areFileNames writable.distinct
      fun other member => (clear other member).1
    have sameOutside (location : List String) (outside : directoryName ∉ location) :
        written.look? location = system.look? location := by
      refine same location fun other _ directory _ => ⟨?_, ?_⟩
      · rintro rfl
        exact outside (by simp)
      · rintro rfl
        exact outside (by simp [place])
    unfold locate
    rw [follow_congr sameOutside]
    intro piece member isName
    rw [pieces_eq_parts] at member
    exact notThrough (mem_components member isName)

theorem WrittenLater.areWritable (later : WrittenLater compiler scanned extension compiled system written count) :
    AreWritable extension compiled.all := by
  obtain ⟨schema, sources, read, ok⟩ := later.compiles
  refine ⟨fun query member => ?_, fun query => isFileName_of_compiled read ok later.isWhole, nodup_names_of_compiled ok⟩
  obtain ⟨directory, liesIn⟩ := exists_liesIn_of_compiled read ok member
  obtain ⟨before, name, parts, isFileName, -⟩ := liesIn.exists_parts
  exact ⟨before, name, parts, isFileName⟩

theorem exportedFiles_isProper : exportedFiles.tree.IsProper := by
  refine .directory (by decide) (by decide +kernel) ?_
  simp only [List.forall_mem_cons, List.not_mem_nil, false_imp_iff, forall_const, and_true]
  refine ⟨.file _ _, .directory (by decide) (by decide +kernel) ?_⟩
  simp only [List.forall_mem_cons, List.not_mem_nil, false_imp_iff, forall_const, and_true]
  refine ⟨.file _ _, .directory (by decide) (by decide +kernel) ?_⟩
  simpa [staleArtifacts] using Entry.IsProper.file _ _

def twoQueries : String := "export let q=graphql\x60query A\x7ba\x7d query B\x7bb\x7d\x60"

/-- A page with two queries, on a disk with other entries beside it and with these artifacts. -/
def detourFiles (beside artifacts : List (String × Entry)) : FileSystem where
  tree := .directory (beside ++ [("s", .file (.text "type Query\x7ba:Int b:Int\x7d") 0),
    ("p", .directory (("a.js", .file (.text twoQueries) 1) :: artifacts))])
  clock := 3

def currentArtifacts : List (String × Entry) :=
  [("__generated__", .directory [("A.generated.graphql", .file (.text "query A \x7b\n  a\n\x7d\n") 2),
    ("B.generated.graphql", .file (.text "query B \x7b\n  b\n\x7d\n") 2)])]

def detourCompiler : QueryCompiler := .ofConfig ⟨⟨"/g/../p"⟩, ⟨"/s"⟩⟩ {}

def detourSchemaCompiler : QueryCompiler := .ofConfig ⟨⟨"/p"⟩, ⟨"/p/__generated__/../../s"⟩⟩ {}

end SiteQuery.Artifact
