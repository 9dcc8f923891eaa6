import SiteQuery.Compilation.Project
import SiteQuery.Proofs.Compilation.Completeness
import SiteQuery.Proofs.Files.Following
import SiteQuery.Proofs.Graphql.Parsed

/-!
The sources of a pass.

Each document comes from a scanned file that can be read, and is that of the template which stands for the file:
`Contributes`. So two documents of one file would be the same, and a pass with them fails on their names:
`apart_of_compiled`.
-/

namespace SiteQuery.SourceFilter

variable {filter : SourceFilter} {path : Path}

mutual

theorem isSource_of_mem_walk (base : Path) : ∀ entry : Entry, path ∈ filter.walk base entry → filter.isSource path = true
  | .file content modified, member => by
    unfold walk at member
    split at member
    · rename_i isSource
      rwa [List.mem_singleton.mp member]
    · cases member
  | .directory entries, member => isSource_of_mem_walkIn base entries member

theorem isSource_of_mem_walkIn (base : Path) :
    ∀ entries : List (String × Entry), path ∈ filter.walkIn base entries → filter.isSource path = true
  | [], member => by cases member
  | (name, entry) :: rest, member => by
    unfold walkIn at member
    rcases List.mem_append.mp member with inEntry | inRest
    · split at inEntry
      · cases inEntry
      · exact isSource_of_mem_walk (base.join ⟨name⟩) entry inEntry
    · exact isSource_of_mem_walkIn base rest inRest

end

theorem isSource_of_mem_scan {system : FileSystem} {base : Path} {paths : List Path}
    (scanned : filter.scan system base = .ok paths) (member : path ∈ paths) : filter.isSource path = true := by
  obtain ⟨entry, -, same⟩ := bind_eq_ok scanned
  obtain rfl := Except.ok.inj same
  have found := (sorted_perm _ _).subset member
  split at found
  · cases found
  · exact isSource_of_mem_walk base entry found

/-- No source leads through a directory of artifacts. -/
theorem not_mem_spelled_of_isSource (isSource : filter.isSource path = true) :
    Artifact.directoryName ∉ FileSystem.spelled path := by
  intro member
  have inComponents := FileSystem.name_of_mem_spelled member
  simp only [SourceFilter.isSource, Bool.and_eq_true, Bool.not_eq_true'] at isSource
  have notSkipped := List.any_eq_false.mp isSource.1.2 _ inComponents
  exact notSkipped (by decide)

end SiteQuery.SourceFilter

namespace SiteQuery.Script

theorem Dialect.ofPath_congr {a b : Path} (same : a.same b = true) : Dialect.ofPath a = Dialect.ofPath b := by
  simp only [Dialect.ofPath, Path.extension?, Path.fileName?, Path.same_iff.mp same]

namespace Outline

variable {tag : String} {found : TagMatch}

mutual

theorem exists_template {binding? : Option String} {isExported : Bool} :
    ∀ outline : Outline, found ∈ tags tag binding? isExported outline → ∃ texts, found.document = readTemplate texts
  | .tagged name start stop texts parts, member => by
    unfold tags at member
    split at member
    · rcases List.mem_cons.mp member with rfl | inParts
      · exact ⟨texts, rfl⟩
      · exact exists_template_in parts inParts
    · exact exists_template_in parts member
  | .declarator _ parts, member => exists_template_in parts member
  | .exported parts, member => exists_template_in parts member
  | .placeholder _, member => by cases member

theorem exists_template_in {binding? : Option String} {isExported : Bool} :
    ∀ parts : List Outline, found ∈ tagsIn tag binding? isExported parts → ∃ texts, found.document = readTemplate texts
  | [], member => by cases member
  | part :: rest, member => by
    unfold tagsIn at member
    rcases List.mem_append.mp member with inPart | inRest
    · exact exists_template part inPart
    · exact exists_template_in rest inRest

end

end Outline

/-- The document of a template was read from a text, and holds something. -/
theorem readTemplate_eq_ok {texts : List String} {document : Graphql.Document}
    (read : readTemplate texts = .ok document) :
    (∃ text, Graphql.Document.parse text = .ok document) ∧ document.definitions ≠ [] := by
  unfold readTemplate at read
  split at read
  · rename_i text
    split at read
    · cases read
    · split at read
      · cases read
      · rename_i parsed isParsed
        split at read
        · cases read
        · rename_i notEmpty
          cases read
          exact ⟨⟨text, isParsed⟩, by simpa using notEmpty⟩
  · cases read

end SiteQuery.Script

namespace SiteQuery.Compilation

open Graphql Script

/-- The template that stands for a file gives this document. -/
structure Contributes (tag : String) (system : FileSystem) (source : SourceDocument) (found : TagMatch) : Prop where
  primary : ∃ code parsed others, system.readText source.path = .ok code ∧
    Module.parse? (.ofPath source.path) code = some parsed ∧ parsed.primaryTag? tag = some (found, others)
  document : found.document = .ok source.document

namespace Contributes

variable {tag : String} {system : FileSystem} {source other : SourceDocument} {found second : TagMatch}

theorem exists_binding (contributes : Contributes tag system source found) :
    ∃ binding, found.binding? = some binding := by
  obtain ⟨_, _, _, -, -, primary⟩ := contributes.primary
  simp only [Module.primaryTag?, Option.map_eq_some_iff, Prod.mk.injEq] at primary
  obtain ⟨_, isFound, rfl, -⟩ := primary
  have suits := List.find?_some isFound
  rw [Bool.and_eq_true] at suits
  exact Option.isSome_iff_exists.mp suits.2

theorem readTemplate_eq_ok (contributes : Contributes tag system source found) :
    (∃ text, Document.parse text = .ok source.document) ∧ source.document.definitions ≠ [] := by
  obtain ⟨_, _, _, -, -, primary⟩ := contributes.primary
  simp only [Module.primaryTag?, Option.map_eq_some_iff, Prod.mk.injEq] at primary
  obtain ⟨_, isFound, rfl, -⟩ := primary
  obtain ⟨texts, isTemplate⟩ := Outline.exists_template_in _ (List.mem_of_find?_eq_some isFound)
  exact Script.readTemplate_eq_ok (isTemplate.symm.trans contributes.document)

/-- One file has one document. -/
theorem document_unique (contributes : Contributes tag system source found) (also : Contributes tag system other second)
    (same : source.path.same other.path = true) : source.document = other.document := by
  obtain ⟨code, parsed, _, read, isModule, primary⟩ := contributes.primary
  obtain ⟨code', parsed', _, read', isModule', primary'⟩ := also.primary
  obtain rfl := FileSystem.readText_unique same read read'
  rw [Dialect.ofPath_congr same] at isModule
  obtain rfl := Option.some.inj (isModule.symm.trans isModule')
  obtain ⟨rfl, -⟩ := Prod.mk.inj (Option.some.inj (primary.symm.trans primary'))
  exact Except.ok.inj (contributes.document.symm.trans also.document)

end Contributes

variable {tag : String} {system : FileSystem} {compiler : QueryCompiler} {path : Path} {code : String}
  {source : SourceDocument} {sources : List SourceDocument} {schema : Schema} {compiled : CompiledQueries}

theorem readSource_eq_some (read : compiler.readSource system path = .ok (some source)) :
    source.path = path ∧ ∃ found, Contributes compiler.tag system source found := by
  unfold QueryCompiler.readSource at read
  split at read
  · cases read
  · rename_i code isCode
    unfold sourceDocument? at read
    split at read
    · split at read
      · cases read
      · rename_i parsed isModule
        split at read
        · cases read
        · rename_i found others primary
          split at read
          · cases read
          · rename_i document isDocument
            cases read
            exact ⟨rfl, found, ⟨code, parsed, others, isCode, isModule, primary⟩, isDocument⟩
    · cases read

theorem exists_mapM_eq_ok {Error Item Result : Type} {f : Item → Except Error Result} {items : List Item}
    {results : List Result} (mapped : items.mapM f = .ok results) :
    ∀ item ∈ items, ∃ result ∈ results, f item = .ok result := by
  induction items generalizing results with
  | nil => exact nofun
  | cons item rest ih =>
    rw [List.mapM_cons] at mapped
    obtain ⟨first, isFirst, more⟩ := bind_eq_ok mapped
    obtain ⟨others, areOthers, same⟩ := bind_eq_ok more
    obtain rfl := Except.ok.inj same
    refine List.forall_mem_cons.mpr ⟨⟨first, List.mem_cons_self, isFirst⟩, fun other inRest => ?_⟩
    obtain ⟨result, member, isResult⟩ := ih areOthers other inRest
    exact ⟨result, List.mem_cons_of_mem _ member, isResult⟩

theorem mapM_congr {Error Item Result : Type} {f g : Item → Except Error Result} {items : List Item}
    (same : ∀ item ∈ items, f item = g item) : items.mapM f = items.mapM g := by
  induction items with
  | nil => rfl
  | cons item rest ih =>
    obtain ⟨sameFirst, sameRest⟩ := List.forall_mem_cons.mp same
    rw [List.mapM_cons, List.mapM_cons, sameFirst, ih sameRest]

theorem exists_paths (read : compiler.sourceDocuments system = .ok sources) :
    ∃ paths, compiler.sourceFiles system = .ok paths ∧
      (∀ path ∈ paths, ∃ source?, compiler.readSource system path = .ok source?) ∧
      ∀ source, source ∈ sources ↔ ∃ path ∈ paths, compiler.readSource system path = .ok (some source) := by
  obtain ⟨paths, scanned, more⟩ := bind_eq_ok read
  obtain ⟨found, mapped, same⟩ := bind_eq_ok more
  obtain rfl := Except.ok.inj same
  refine ⟨paths, scanned, fun path member => ?_, fun source => ?_⟩
  · obtain ⟨source?, -, isSource⟩ := exists_mapM_eq_ok mapped path member
    exact ⟨source?, isSource⟩
  · rw [List.mem_filterMap]
    constructor
    · rintro ⟨source?, member, rfl⟩
      exact mem_of_mapM_eq_ok mapped _ member
    · rintro ⟨path, member, isSource⟩
      obtain ⟨source?, inFound, isFound⟩ := exists_mapM_eq_ok mapped path member
      exact ⟨source?, inFound, Except.ok.inj (isFound.symm.trans isSource)⟩

theorem isSource_of_sourceFiles {paths : List Path} (scanned : compiler.sourceFiles system = .ok paths)
    (member : path ∈ paths) : compiler.filter.isSource path = true := by
  unfold QueryCompiler.sourceFiles at scanned
  split at scanned
  · cases scanned
  · rename_i found isScanned
    obtain rfl := Except.ok.inj scanned
    exact SourceFilter.isSource_of_mem_scan isScanned member

theorem exists_contributes (read : compiler.sourceDocuments system = .ok sources) (member : source ∈ sources) :
    compiler.filter.isSource source.path = true ∧ ∃ found, Contributes compiler.tag system source found := by
  obtain ⟨paths, scanned, -, mem_iff⟩ := exists_paths read
  obtain ⟨path, inPaths, isSource⟩ := (mem_iff source).mp member
  obtain ⟨rfl, contributes⟩ := readSource_eq_some isSource
  exact ⟨isSource_of_sourceFiles scanned inPaths, contributes⟩

/-- Whatever is defined in documents that compile has a name. -/
theorem exists_name_of_compiled (ok : compileDocuments schema sources = .ok compiled) (member : source ∈ sources)
    {definition : Document.Definition} (defined : definition ∈ source.document.definitions) :
    ∃ name, definition.name? = some name := by
  obtain ⟨nodes, converted⟩ := (compilable_of_ok ok).converted source member
  exact Conversion.exists_name_of_gives (Node.gives_of_ofDocument converted) defined

/-- Documents of one file would define its names twice. -/
theorem apart_of_compiled (read : compiler.sourceDocuments system = .ok sources)
    (ok : compileDocuments schema sources = .ok compiled) :
    sources.Pairwise fun a b => a.path.same b.path = false := by
  have disjoint := (List.nodup_flatMap.mp (compilable_of_ok ok).distinct).2
  refine disjoint.imp_of_mem fun {a b} inA inB apart => ?_
  rw [Bool.eq_false_iff]
  intro same
  obtain ⟨-, found, contributes⟩ := exists_contributes read inA
  obtain ⟨-, second, also⟩ := exists_contributes read inB
  have sameDocument := contributes.document_unique also same
  obtain ⟨definition, rest, split⟩ := List.exists_cons_of_ne_nil contributes.readTemplate_eq_ok.2
  have defined : definition ∈ a.document.definitions := split ▸ List.mem_cons_self
  obtain ⟨name, named⟩ := exists_name_of_compiled ok inA defined
  have inNames : name ∈ a.document.names := List.mem_filterMap.mpr ⟨definition, defined, named⟩
  have alsoInNames : name ∈ b.document.names := sameDocument ▸ inNames
  exact apart inNames alsoInNames

/-- A pass finds the named operations of each document under its file, and nothing elsewhere. -/
theorem isComplete_of_compiled (read : compiler.sourceDocuments system = .ok sources)
    (ok : compileDocuments schema sources = .ok compiled) : IsComplete sources compiled := by
  have apart := apart_of_compiled read ok
  obtain ⟨context, holds, -, rfl⟩ := compileDocuments_eq_ok ok
  exact isComplete_foldl_insert apart holds.map_key_queries

/-- The queries of a pass, file by file, are the named operations of its documents. -/
theorem perm_all_of_compiled (ok : compileDocuments schema sources = .ok compiled) :
    (compiled.all.map CompiledQuery.key).Perm
      (sources.flatMap fun source => source.document.operationNames.map (·, source.path)) := by
  obtain ⟨context, holds, -, rfl⟩ := compileDocuments_eq_ok ok
  rw [← holds.map_key_queries]
  refine List.Perm.map _ ((CompiledQueries.all_foldl_insert_perm _ []).trans ?_)
  rw [CompiledQueries.all, List.flatMap_nil, List.append_nil]

theorem operationNames_sublist (definitions : List Document.Definition) :
    (definitions.filterMap Document.Definition.operationName?).Sublist
      (definitions.filterMap Document.Definition.name?) := by
  induction definitions with
  | nil => exact List.Sublist.refl _
  | cons definition rest ih =>
    rw [List.filterMap_cons, List.filterMap_cons]
    cases definition with
    | fragment fragment => exact ih.cons fragment.name
    | operation operation =>
      simp only [Document.Definition.operationName?, Document.Definition.name?]
      cases operation.name? with
      | none => exact ih
      | some name => exact ih.cons_cons name

/-- No two queries of a pass have one name. -/
theorem nodup_names_of_compiled (ok : compileDocuments schema sources = .ok compiled) :
    (compiled.all.map (·.name)).Nodup := by
  have named : (compiled.all.map (·.name)).Perm (sources.flatMap (·.document.operationNames)) := by
    have names := (perm_all_of_compiled ok).map Prod.fst
    rw [List.map_map, List.map_flatMap] at names
    simpa [Function.comp_def, CompiledQuery.key] using names
  refine named.nodup_iff.mpr ((compilable_of_ok ok).distinct.sublist ?_)
  have ofDefinitions := operationNames_sublist (sources.flatMap (·.document.definitions))
  rwa [← definitionNames_eq, List.filterMap_flatMap] at ofDefinitions

end SiteQuery.Compilation
