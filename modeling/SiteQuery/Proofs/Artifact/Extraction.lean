import SiteQuery.Artifact.Extraction
import SiteQuery.Proofs.Artifact.Writing
import SiteQuery.Proofs.Compilation.SchemaCache
import SiteQuery.Proofs.Compilation.Sources

/-!
What is extracted once a pass was written.

A source that contributed a document gives the compiled text of the query which that document starts with, under the
name its template is bound to, and nothing where it starts with something else: `extractQuery_of_written`.
-/

namespace SiteQuery.Artifact

open Compilation Graphql Script

/-- A pass over the project has compiled these queries, and their artifacts were written after it. -/
structure WrittenPass (compiler : QueryCompiler) (system : FileSystem) (extension : String) (compiled : CompiledQueries)
    (written : FileSystem) : Prop where
  compiles : (compiler.compileAll system).1 = .ok compiled
  wrote : ∃ count, writeAll extension system compiled = (written, .ok count)
  isWhole : '/' ∉ extension.toList

variable {compiler : QueryCompiler} {system written : FileSystem} {extension name code : String}
  {compiled : CompiledQueries} {query : CompiledQuery} {sources : List SourceDocument} {source : SourceDocument}
  {schema : Schema} {file : Path} {found : TagMatch}

theorem WrittenPass.of_toOption (compiles : (compiler.compileAll system).1.toOption = some compiled)
    (wrote : (writeAll extension system compiled).2.toOption.isSome = true) (isWhole : '/' ∉ extension.toList) :
    WrittenPass compiler system extension compiled (writeAll extension system compiled).1 := by
  obtain ⟨count, counted⟩ := Option.isSome_iff_exists.mp wrote
  exact ⟨toOption_eq_some compiles, ⟨count, Prod.ext rfl (toOption_eq_some counted)⟩, isWhole⟩

theorem exists_sources (ran : (compiler.compileAll system).1 = .ok compiled) :
    ∃ schema sources, compiler.sourceDocuments system = .ok sources ∧
      compileDocuments schema sources = .ok compiled := by
  have asOption := (compiler.compileAll_eq system).1
  rw [ran] at asOption
  obtain ⟨loaded, -, isSome⟩ := Option.bind_eq_some_iff.mp asOption.symm
  have fresh : compiler.compileWith system loaded.schema = .ok compiled := toOption_eq_some isSome
  obtain ⟨sources, read, more⟩ := bind_eq_ok fresh
  refine ⟨loaded.schema, sources, read, ?_⟩
  cases outcome : compileDocuments loaded.schema sources with
  | error rejection => simp [outcome, throw, throwThe, MonadExceptOf.throw] at more
  | ok queries =>
    simp only [outcome, pure, Except.pure] at more
    rw [Except.ok.inj more]

theorem not_mem_of_isName {text : List Char} (isName : IsName text) : '/' ∉ text := by
  cases text with
  | nil => exact List.not_mem_nil
  | cons first rest =>
    intro member
    rcases List.mem_cons.mp member with rfl | inRest
    · exact absurd isName.1 (by decide)
    · exact absurd (isName.2 _ inRest) (by decide)

theorem isName_of_mem_operationNames {text : String} {document : Document} (parsed : Document.parse text = .ok document)
    (member : name ∈ document.operationNames) : IsName name.toList := by
  obtain ⟨definition, defined, named⟩ := List.mem_filterMap.mp member
  have printable := Document.printable_of_parse parsed definition defined
  cases definition with
  | fragment fragment => cases named
  | operation operation => exact printable.name name named

theorem exists_source_of_mem_all (ok : compileDocuments schema sources = .ok compiled) (member : query ∈ compiled.all) :
    ∃ source ∈ sources, query.path = source.path ∧ query.name ∈ source.document.operationNames := by
  have inKeys := (perm_all_of_compiled ok).subset (List.mem_map_of_mem member)
  obtain ⟨source, inSources, isKey⟩ := List.mem_flatMap.mp inKeys
  obtain ⟨name, isName, same⟩ := List.mem_map.mp isKey
  obtain ⟨rfl, isPath⟩ := Prod.mk.inj same
  exact ⟨source, inSources, isPath.symm, isName⟩

theorem isFileName_of_compiled (read : compiler.sourceDocuments system = .ok sources)
    (ok : compileDocuments schema sources = .ok compiled) (isWhole : '/' ∉ extension.toList) (member : query ∈ compiled.all) :
    Path.IsFileName (fileName query.name extension) := by
  obtain ⟨source, inSources, -, inNames⟩ := exists_source_of_mem_all ok member
  obtain ⟨-, found, contributes⟩ := exists_contributes read inSources
  obtain ⟨⟨text, parsed⟩, -⟩ := contributes.readTemplate_eq_ok
  exact isFileName_fileName (not_mem_of_isName (isName_of_mem_operationNames parsed inNames)) isWhole

/-- Where a pass has read a source, the directory of that source is there. -/
theorem exists_liesIn_of_compiled (read : compiler.sourceDocuments system = .ok sources)
    (ok : compileDocuments schema sources = .ok compiled) (member : query ∈ compiled.all) :
    ∃ directory, LiesIn system query.path directory := by
  obtain ⟨source, inSources, isPath, -⟩ := exists_source_of_mem_all ok member
  obtain ⟨-, found, contributes⟩ := exists_contributes read inSources
  obtain ⟨code, _, _, isCode, -⟩ := contributes.primary
  obtain ⟨directory, _, isIn, -⟩ := exists_liesIn isCode
  exact ⟨directory, isPath ▸ isIn⟩

/-- After a pass was written its sources read as before, and each of its artifacts reads as its query. -/
theorem readText_of_written (pass : WrittenPass compiler system extension compiled written)
    (read : compiler.sourceDocuments system = .ok sources) (ok : compileDocuments schema sources = .ok compiled) :
    (∀ file code, compiler.filter.isSource file = true → system.readText file = .ok code →
      written.readText file = .ok code) ∧
      ∀ query ∈ compiled.all, written.readText (path query.path query.name extension) = .ok query.text := by
  obtain ⟨count, wrote⟩ := pass.wrote
  obtain ⟨grows, artifacts, same⟩ := writeQueries_spec wrote
    (fun query => isFileName_of_compiled read ok pass.isWhole) (nodup_names_of_compiled ok)
    fun query => exists_liesIn_of_compiled read ok
  refine ⟨fun file code isSource isCode => grows.readText isCode (same _ ?_), artifacts⟩
  have notThere := SourceFilter.not_mem_spelled_of_isSource isSource
  intro query _ directory _
  exact ⟨fun isDirectory => notThere (by simp [isDirectory]), fun isPlace => notThere (by simp [isPlace, place])⟩

theorem queryName?_eq_some {operation : Document.Operation} {document : Document}
    (isFirst : document.first? = some (.operation operation)) (isQuery : operation.kind = .query) :
    queryName? document = operation.name? := by
  simp [queryName?, isFirst, isQuery]

theorem queryName?_eq_none {document : Document}
    (noQuery : ∀ operation, document.first? = some (.operation operation) → operation.kind ≠ .query) :
    queryName? document = none := by
  unfold queryName?
  split
  · rename_i operation isFirst
    rw [if_neg (noQuery operation isFirst)]
  · rfl

theorem exists_operation_of_queryName? {document : Document} (named : queryName? document = some name) :
    ∃ operation, document.first? = some (.operation operation) ∧ operation.kind = .query ∧
      operation.name? = some name := by
  unfold queryName? at named
  split at named
  · rename_i operation isFirst
    split at named
    · rename_i isQuery
      exact ⟨operation, isFirst, isQuery, named⟩
    · cases named
  · cases named

/-- The query of a document that starts with one is the first of its file. -/
theorem get?_of_queryName? (read : compiler.sourceDocuments system = .ok sources)
    (ok : compileDocuments schema sources = .ok compiled) (member : source ∈ sources)
    (named : queryName? source.document = some name) :
    ∃ query rest, compiled.get? source.path = some (query :: rest) ∧ query.name = name ∧ query.path = source.path := by
  obtain ⟨others, first⟩ : ∃ others, source.document.operationNames = name :: others := by
    obtain ⟨operation, isFirst, -, isName⟩ := exists_operation_of_queryName? named
    obtain ⟨rest, split⟩ := List.head?_eq_some_iff.mp isFirst
    exact ⟨_, by rw [Document.operationNames, split, List.filterMap_cons_some (by exact isName)]⟩
  have complete := (isComplete_of_compiled read ok).found source member
  rw [first, if_neg (List.cons_ne_nil _ _)] at complete
  obtain ⟨queries, isFound, keys⟩ := Option.map_eq_some_iff.mp complete
  obtain ⟨query, rest, rfl, isKey, -⟩ := List.map_eq_cons_iff.mp keys
  obtain ⟨isName, isPath⟩ := Prod.mk.inj isKey
  exact ⟨query, rest, isFound, isName, isPath⟩

theorem extractQuery_eq (contributes : Contributes compiler.tag system source found)
    (same : ∀ code, system.readText source.path = .ok code → written.readText source.path = .ok code) {binding : String}
    (bound : found.binding? = some binding) :
    extractQuery written ⟨compiler.tag, extension⟩ source.path =
      match queryName? source.document with
      | none => .ok none
      | some name =>
        match written.readText (path source.path name extension) with
        | .error cause => .error (.missingArtifact name (path source.path name extension) cause)
        | .ok text => .ok (some ⟨binding, trimmed text⟩) := by
  obtain ⟨code, parsed, others, isCode, isModule, primary⟩ := contributes.primary
  simp only [extractQuery, same code isCode, isModule, extractFrom, primary, contributes.document, bound]
  cases queryName? source.document <;> rfl

theorem extractQuery_of_contributes (pass : WrittenPass compiler system extension compiled written)
    (read : compiler.sourceDocuments system = .ok sources) (ok : compileDocuments schema sources = .ok compiled)
    (member : source ∈ sources) (contributes : Contributes compiler.tag system source found) {binding : String}
    (bound : found.binding? = some binding) :
    (∀ name, queryName? source.document = some name →
      ∃ query rest, compiled.get? source.path = some (query :: rest) ∧ query.name = name ∧
        extractQuery written ⟨compiler.tag, extension⟩ source.path = .ok (some ⟨binding, trimmed query.text⟩)) ∧
      (queryName? source.document = none → extractQuery written ⟨compiler.tag, extension⟩ source.path = .ok none) := by
  obtain ⟨sameSources, artifacts⟩ := readText_of_written pass read ok
  have isSource := (exists_contributes read member).1
  have extracts : extractQuery written ⟨compiler.tag, extension⟩ source.path = _ :=
    extractQuery_eq contributes (fun code => sameSources source.path code isSource) bound
  refine ⟨fun name named => ?_, fun unnamed => by rw [extracts, unnamed]⟩
  obtain ⟨query, rest, isFound, rfl, isPath⟩ := get?_of_queryName? read ok member named
  have isText := artifacts query (CompiledQueries.mem_all_of_get? isFound List.mem_cons_self)
  rw [isPath] at isText
  exact ⟨query, rest, isFound, rfl, by rw [extracts, named]; simp only [isText]⟩

/-- Every source of a pass that was written can be extracted: it gives the trimmed text of its first compiled query,
under the name that its template is bound to, if its document starts with a query, and nothing otherwise. -/
theorem extractQuery_of_written (pass : WrittenPass compiler system extension compiled written) :
    ∃ sources, compiler.sourceDocuments system = .ok sources ∧ ∀ source ∈ sources,
      ∃ found binding, Contributes compiler.tag system source found ∧ found.binding? = some binding ∧
        (∀ operation, source.document.first? = some (.operation operation) → operation.kind = .query →
          ∃ query rest, compiled.get? source.path = some (query :: rest) ∧ operation.name? = some query.name ∧
            extractQuery written ⟨compiler.tag, extension⟩ source.path = .ok (some ⟨binding, trimmed query.text⟩)) ∧
        ((∀ operation, source.document.first? = some (.operation operation) → operation.kind ≠ .query) →
          extractQuery written ⟨compiler.tag, extension⟩ source.path = .ok none) := by
  obtain ⟨schema, sources, read, ok⟩ := exists_sources pass.compiles
  refine ⟨sources, read, fun source member => ?_⟩
  obtain ⟨-, found, contributes⟩ := exists_contributes read member
  obtain ⟨binding, bound⟩ := contributes.exists_binding
  obtain ⟨ofQuery, ofOthers⟩ := extractQuery_of_contributes pass read ok member contributes bound
  refine ⟨found, binding, contributes, bound, fun operation isFirst isQuery => ?_, fun noQuery => ?_⟩
  · obtain ⟨name, named⟩ := exists_name_of_compiled ok member (List.mem_of_mem_head? isFirst)
    have isName : operation.name? = some name := named
    obtain ⟨query, rest, isFound, rfl, extracted⟩ := ofQuery name ((queryName?_eq_some isFirst isQuery).trans isName)
    exact ⟨query, rest, isFound, isName, extracted⟩
  · exact ofOthers (queryName?_eq_none noQuery)

def pagePath : Path := ⟨"/p/a.js"⟩

/-- A page of this source, and what an earlier run of the writer has left. -/
def pageFiles (code : String) (artifacts : List (String × Entry)) : FileSystem where
  tree := .directory [
    ("s", .file (.text "type Query\x7ba:Int b:Int\x7d type Mutation\x7ba:Int\x7d") 0),
    ("p", .directory [("a.js", .file (.text code) 1), ("__generated__", .directory artifacts)])]
  clock := 3

/-- Another query of the same name. -/
def staleArtifacts : List (String × Entry) := [("A.generated.graphql", .file (.text "query A\x7bb\x7d") 2)]

def exportedPage : String := "export let pageQuery=graphql\x60query A\x7ba\x7d\x60"

def exportedFiles : FileSystem := pageFiles exportedPage staleArtifacts

def pageCompiler : QueryCompiler := .ofConfig ⟨⟨"/p"⟩, ⟨"/s"⟩⟩ {}

set_option maxRecDepth 20000 in
theorem extractQuery_of_exportedPage :
    ∃ compiled written, WrittenPass pageCompiler exportedFiles "graphql" compiled written ∧
      ∃ query rest binding, compiled.get? pagePath = some (query :: rest) ∧ query.text = "query A \x7b\n  a\n\x7d\n" ∧
        extractQuery written ⟨pageCompiler.tag, "graphql"⟩ pagePath = .ok (some ⟨binding, trimmed query.text⟩) := by
  have ran : ∃ compiled ∈ (pageCompiler.compileAll exportedFiles).1.toOption,
      (writeAll "graphql" exportedFiles compiled).2.toOption.isSome = true ∧
      (∃ queries ∈ compiled.get? pagePath, queries.map (·.text) = ["query A \x7b\n  a\n\x7d\n"]) ∧
      ∃ sources ∈ (pageCompiler.sourceDocuments exportedFiles).toOption, ∃ source ∈ sources,
        source.path = pagePath ∧ queryName? source.document = some "A" := by decide +kernel
  obtain ⟨compiled, compiles, wrote, ⟨queries, areFound, texts⟩, sources, areSources, source, member, isPath, named⟩ :=
    ran
  have pass := WrittenPass.of_toOption compiles wrote (by decide)
  obtain ⟨sources', read, extracts⟩ := extractQuery_of_written pass
  obtain rfl := Except.ok.inj ((toOption_eq_some areSources).symm.trans read)
  obtain ⟨found, binding, -, -, ofQuery, -⟩ := extracts source member
  obtain ⟨operation, isFirst, isQuery, -⟩ := exists_operation_of_queryName? named
  obtain ⟨query, rest, isFound, -, extracted⟩ := ofQuery operation isFirst isQuery
  rw [isPath] at isFound extracted
  obtain rfl := Option.some.inj (isFound.symm.trans areFound)
  exact ⟨compiled, _, pass, query, rest, binding, isFound, List.head_eq_of_cons_eq texts, extracted⟩

end SiteQuery.Artifact
