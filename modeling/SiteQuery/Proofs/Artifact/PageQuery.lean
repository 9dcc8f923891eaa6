import SiteQuery.Proofs.Artifact.Extraction
import SiteQuery.Watch.Reaction

/-!
The page query that is watched, and the one that is extracted.

The watcher has the first query of the template that stands for a file, whatever that template is bound to and
whatever its document starts with. What is extracted is bound to the name of page queries, and is the first definition
of its document. `pageQuery_of_written` says when the two are the same.
-/

namespace SiteQuery.Artifact

open Compilation Graphql Script

/-- Where the template of a module defines a query, it exports its first definition as a page query. -/
def ExportsFirst (tag : String) (parsed : Module) : Prop :=
  ∀ found others document, parsed.primaryTag? tag = some (found, others) → found.document = .ok document →
    document.operationNames = [] ∨ found.binding? = some pageQueryBinding ∧ (queryName? document).isSome = true

variable {compiler : QueryCompiler} {system written : FileSystem} {extension code : String} {compiled : CompiledQueries}
  {sources : List SourceDocument} {source : SourceDocument} {schema : Schema} {paths : List Path} {file : Path}
  {parsed : Module}

theorem exportsFirst_iff {tag binding : String} {found : TagMatch} {others : Nat} {document : Document}
    (primary : parsed.primaryTag? tag = some (found, others)) (isDocument : found.document = .ok document)
    (bound : found.binding? = some binding) :
    ExportsFirst tag parsed ↔
      document.operationNames = [] ∨ binding = pageQueryBinding ∧ (queryName? document).isSome = true := by
  constructor
  · intro exports
    rcases exports found others document primary isDocument with noNames | ⟨isPage, isNamed⟩
    · exact .inl noNames
    · exact .inr ⟨Option.some.inj (bound.symm.trans isPage), isNamed⟩
  · rintro exports found' others' document' isPrimary isDocument'
    cases primary.symm.trans isPrimary
    cases isDocument.symm.trans isDocument'
    rwa [bound, Option.some_inj]

theorem extractPageQuery_of_ok {options : ExtractOptions} {extracted? : Option ExtractedQuery}
    (extracted : extractQuery written options file = .ok extracted?) :
    extractPageQuery written options file =
      .ok (extracted?.bind fun query => if query.binding = pageQueryBinding then some query.text else none) := by
  cases extracted? <;> simp [extractPageQuery, extracted, bind, Except.bind, pure, Except.pure]

/-- A file whose module has no template to stand for it has nothing compiled, and nothing to extract. -/
theorem extractPageQuery_of_no_template (pass : WrittenPass compiler system extension compiled written)
    (isSource : compiler.filter.isSource file = true) (isCode : system.readText file = .ok code)
    (isModule : Module.parse? (.ofPath file) code = some parsed) (noTemplate : parsed.primaryTag? compiler.tag = none) :
    Watch.queryText? compiled file = none ∧ extractPageQuery written ⟨compiler.tag, extension⟩ file = .ok none := by
  obtain ⟨schema, sources, read, ok⟩ := exists_sources pass.compiles
  have complete := isComplete_of_compiled read ok
  have missing : compiled.get? file = none := by
    refine complete.no_other file fun source member => ?_
    rw [Bool.eq_false_iff]
    intro same
    obtain ⟨-, found, contributes⟩ := exists_contributes read member
    obtain ⟨code', parsed', others, isCode', isModule', primary⟩ := contributes.primary
    obtain rfl := FileSystem.readText_unique same isCode' isCode
    rw [Dialect.ofPath_congr same, isModule] at isModule'
    obtain rfl := Option.some.inj isModule'
    cases noTemplate.symm.trans primary
  refine ⟨by simp [Watch.queryText?, missing], ?_⟩
  have sameCode := (readText_of_written pass read ok).1 file code isSource isCode
  have nothing : extractQuery written ⟨compiler.tag, extension⟩ file = .ok none := by
    simp only [extractQuery, sameCode, isModule, extractFrom, noTemplate]
  exact extractPageQuery_of_ok nothing

/-- A source that is parsed gives the document of the template that stands for it. -/
theorem exists_source_of_template (read : compiler.sourceDocuments system = .ok sources)
    (scanned : compiler.sourceFiles system = .ok paths) (member : file ∈ paths)
    (isCode : system.readText file = .ok code)
    (visible : occurs compiler.tag.toList code.toList = true)
    (isModule : Module.parse? (.ofPath file) code = some parsed)
    {found : TagMatch} {others : Nat} (primary : parsed.primaryTag? compiler.tag = some (found, others)) :
    ∃ document, ⟨file, document⟩ ∈ sources ∧ Contributes compiler.tag system ⟨file, document⟩ found := by
  obtain ⟨all, isScan, areRead, mem_iff⟩ := exists_paths read
  obtain rfl := Except.ok.inj (scanned.symm.trans isScan)
  obtain ⟨source?, isRead⟩ := areRead file member
  cases isDocument : found.document with
  | error error =>
    simp [QueryCompiler.readSource, isCode, sourceDocument?, visible, isModule, primary, isDocument] at isRead
  | ok document =>
    refine ⟨document, (mem_iff _).mpr ⟨file, member, ?_⟩, ⟨code, parsed, others, isCode, isModule, primary⟩, isDocument⟩
    simp [QueryCompiler.readSource, isCode, sourceDocument?, visible, isModule, primary, isDocument]

/-- There is a query to watch as soon as the document defines any. -/
theorem queryText?_eq_none_iff (read : compiler.sourceDocuments system = .ok sources)
    (ok : compileDocuments schema sources = .ok compiled) (member : source ∈ sources) :
    Watch.queryText? compiled source.path = none ↔ source.document.operationNames = [] := by
  have complete := (isComplete_of_compiled read ok).found source member
  by_cases noNames : source.document.operationNames = []
  · rw [if_pos noNames, Option.map_eq_none_iff] at complete
    simp [Watch.queryText?, complete, noNames]
  · rw [if_neg noNames] at complete
    obtain ⟨queries, isFound, keys⟩ := Option.map_eq_some_iff.mp complete
    have notEmpty : queries ≠ [] := by
      rintro rfl
      exact noNames (List.map_eq_nil_iff.mp keys.symm)
    simp [Watch.queryText?, isFound, notEmpty, noNames]

/-- After a pass was written the page query of each scanned module is extracted. It is the query that is watched, but
for the white space around it, or neither is there, if the module exports its first definition as a page query or
defines none; otherwise there is a query to watch, and none is extracted. -/
theorem pageQuery_of_written (pass : WrittenPass compiler system extension compiled written)
    (scanned : compiler.sourceFiles system = .ok paths) (member : file ∈ paths)
    (isCode : system.readText file = .ok code) (isModule : Module.parse? (.ofPath file) code = some parsed)
    (visible : occurs compiler.tag.toList code.toList = true ∨ parsed.primaryTag? compiler.tag = none) :
    ∃ extracted?, extractPageQuery written ⟨compiler.tag, extension⟩ file = .ok extracted? ∧
      (ExportsFirst compiler.tag parsed → extracted? = (Watch.queryText? compiled file).map trimmed) ∧
      (¬ ExportsFirst compiler.tag parsed → extracted? = none ∧ (Watch.queryText? compiled file).isSome = true) := by
  cases primary : parsed.primaryTag? compiler.tag with
  | none =>
    obtain ⟨unwatched, nothing⟩ :=
      extractPageQuery_of_no_template pass (isSource_of_sourceFiles scanned member) isCode isModule primary
    refine ⟨none, nothing, fun _ => by rw [unwatched]; rfl, fun notExported => absurd ?_ notExported⟩
    intro found others document isPrimary
    cases primary.symm.trans isPrimary
  | some template =>
    obtain ⟨found, others⟩ := template
    have isVisible := visible.resolve_right (by simp [primary])
    obtain ⟨schema, sources, read, ok⟩ := exists_sources pass.compiles
    obtain ⟨document, inSources, contributes⟩ :=
      exists_source_of_template read scanned member isCode isVisible isModule primary
    obtain ⟨binding, bound⟩ := contributes.exists_binding
    obtain ⟨ofQuery, ofOthers⟩ := extractQuery_of_contributes pass read ok inSources contributes bound
    have unwatched := queryText?_eq_none_iff read ok inSources
    dsimp only at ofQuery ofOthers unwatched
    rw [exportsFirst_iff primary contributes.document bound]
    cases named : queryName? document with
    | none =>
      refine ⟨none, extractPageQuery_of_ok (ofOthers named), fun exports => ?_, fun notExported => ⟨rfl, ?_⟩⟩
      · have noNames := exports.resolve_right nofun
        rw [unwatched.mpr noNames]
        rfl
      · exact Option.isSome_iff_ne_none.mpr fun isNone => notExported (.inl (unwatched.mp isNone))
    | some name =>
      obtain ⟨query, rest, isFound, -, extracted⟩ := ofQuery name named
      have watched : Watch.queryText? compiled file = some query.text := by simp [Watch.queryText?, isFound]
      have notEmpty : document.operationNames ≠ [] := fun noNames => by simp [unwatched.mpr noNames] at watched
      refine ⟨_, extractPageQuery_of_ok extracted, fun exports => ?_, fun notExported => ⟨?_, by rw [watched]; rfl⟩⟩
      · have isPageQuery := (exports.resolve_left notEmpty).1
        simp [watched, isPageQuery]
      · have otherName : binding ≠ pageQueryBinding := fun isPageQuery => notExported (.inr ⟨isPageQuery, rfl⟩)
        simp [otherName]

set_option maxRecDepth 20000 in
theorem pageQuery_of_exportedPage :
    ∃ compiled written, WrittenPass pageCompiler exportedFiles "graphql" compiled written ∧
      Watch.queryText? compiled pagePath = some "query A \x7b\n  a\n\x7d\n" ∧
      extractPageQuery written ⟨pageCompiler.tag, "graphql"⟩ pagePath =
        .ok (some (trimmed "query A \x7b\n  a\n\x7d\n")) := by
  have ran : ∃ compiled ∈ (pageCompiler.compileAll exportedFiles).1.toOption,
      (writeAll "graphql" exportedFiles compiled).2.toOption.isSome = true ∧
      Watch.queryText? compiled pagePath = some "query A \x7b\n  a\n\x7d\n" ∧
      (∃ paths ∈ (pageCompiler.sourceFiles exportedFiles).toOption, pagePath ∈ paths) ∧
      (exportedFiles.readText pagePath).toOption = some exportedPage ∧
      occurs pageCompiler.tag.toList exportedPage.toList = true ∧
      ∃ parsed ∈ Module.parse? (.ofPath pagePath) exportedPage,
        ∃ template ∈ parsed.primaryTag? pageCompiler.tag, template.1.binding? = some pageQueryBinding ∧
          ∃ document ∈ template.1.document.toOption, (queryName? document).isSome = true := by decide +kernel
  obtain ⟨compiled, compiles, wrote, watched, ⟨paths, scanned, member⟩, isCode, visible, parsed, isModule,
    template, isPrimary, isPage, document, isDocument, isNamed⟩ := ran
  have pass := WrittenPass.of_toOption compiles wrote (by decide)
  have exports : ExportsFirst pageCompiler.tag parsed := by
    rintro found others document' primary isDocument'
    cases (Option.mem_def.mp isPrimary).symm.trans primary
    cases (toOption_eq_some isDocument).symm.trans isDocument'
    exact .inr ⟨isPage, isNamed⟩
  obtain ⟨extracted?, extracted, same, -⟩ :=
    pageQuery_of_written pass (toOption_eq_some scanned) member (toOption_eq_some isCode) isModule (.inl visible)
  refine ⟨compiled, _, pass, watched, ?_⟩
  rw [extracted, same exports, watched]
  rfl

/-- The query of the page that is watched after a pass, and the one that is extracted once the pass was written. -/
def watchedAndExtracted? (extension : String) (system : FileSystem) : Option (Option String × Option String) := do
  let compiled ← (pageCompiler.compileAll system).1.toOption
  let (written, count) := writeAll extension system compiled
  let _ ← count.toOption
  let scanned ← (pageCompiler.sourceFiles system).toOption
  guard (pagePath ∈ scanned)
  let extracted? ← (extractPageQuery written ⟨pageCompiler.tag, extension⟩ pagePath).toOption
  return ((Watch.queryText? compiled pagePath).map trimmed, extracted?)

set_option maxRecDepth 20000 in
/-- They differ where the template has another name, where a fragment or a mutation comes first, where the extension
leads out of the directory of the artifacts to one file for all, and where the tag is written with an escape. -/
theorem watched_otherwise :
    watchedAndExtracted? "graphql" (pageFiles "export let q=graphql\x60query A\x7ba\x7d\x60" staleArtifacts) =
        some (some "query A \x7b\n  a\n\x7d", none) ∧
      watchedAndExtracted? "graphql"
          (pageFiles "export let pageQuery=graphql\x60fragment F on Query\x7ba\x7d query A\x7bb\x7d\x60" staleArtifacts) =
        some (some "query A \x7b\n  b\n\x7d", none) ∧
      watchedAndExtracted? "graphql"
          (pageFiles "export let pageQuery=graphql\x60mutation A\x7ba\x7d\x60" staleArtifacts) =
        some (some "mutation A \x7b\n  a\n\x7d", none) ∧
      watchedAndExtracted? "/../q"
          (pageFiles "export let pageQuery=graphql\x60query A\x7ba\x7d query B\x7bb\x7d\x60"
            [("A.generated.", .directory []), ("B.generated.", .directory []), ("q", .file (.text "") 2)]) =
        some (some "query A \x7b\n  a\n\x7d", some "query B \x7b\n  b\n\x7d") ∧
      watchedAndExtracted? "graphql"
          (pageFiles "export let pageQuery=gr\\u0061phql\x60query A\x7ba\x7d\x60" staleArtifacts) =
        some (none, some "query A\x7bb\x7d") := by
  decide +kernel

end SiteQuery.Artifact
