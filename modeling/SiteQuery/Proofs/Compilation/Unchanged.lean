import SiteQuery.Proofs.Compilation.SchemaCache
import SiteQuery.Proofs.Compilation.Sources
import SiteQuery.Proofs.Files.Changes
import SiteQuery.Proofs.Sources.Listing

/-!
What a pass over a project depends on.

A pass looks at two paths: that of the directory of sources, and that of the schema. Where these lead where they led
before, nothing that comes, goes or changes in directories of artifacts shows in its result: `compileAll_unchanged`.
-/

namespace SiteQuery

namespace FileSystem

open SiteQuery.Path

variable {system after : FileSystem} {path base : Path} {location names : List String} {name : String} {entry : Entry}

/-- A path leads on to an entry of the directory that it leads to. -/
theorem locate_join (located : system.locate base = .ok location) (isFileName : IsFileName name)
    (present : (system.look? (location ++ [name])).isSome = true) :
    system.locate (base.join ⟨name⟩) = .ok (location ++ [name]) := by
  have notEmpty : base.text ≠ "" := by
    intro isEmpty
    simp [locate, isEmpty] at located
  obtain ⟨start, padding, baseParts, -, arePadding, joined⟩ := exists_parts_join notEmpty
  have parts : (base.join ⟨name⟩).parts = start ++ [name.toList] := by
    rw [joined ⟨name⟩ (notAbsolute_of_isFileName isFileName), parts_fileName isFileName]
  have followed : system.follow (start ++ padding) = .ok location := by
    rw [← baseParts, ← pieces_eq_parts]
    simpa [locate, notEmpty] using located
  have isDirectory : system.HasDirectory location := Entry.bareAt?_of_append present (List.cons_ne_nil name [])
  rw [locate_of_parts parts isFileName, follow_concat]
  exact ⟨location, follow_of_append_padding arePadding followed, isDirectory,
    (descend_name isFileName.isComponent).symm, present⟩

theorem locate_below (located : system.locate base = .ok location) (areNames : ∀ name ∈ names, IsFileName name)
    (present : (system.look? (location ++ names)).isSome = true) :
    system.locate (base.below names) = .ok (location ++ names) := by
  induction names generalizing base location with
  | nil => rwa [List.append_nil]
  | cons name rest ih =>
    obtain ⟨isFileName, restNames⟩ := List.forall_mem_cons.mp areNames
    rw [List.append_cons] at present ⊢
    have first : (system.look? (location ++ [name])).isSome = true := by
      cases rest with
      | nil => rwa [List.append_nil] at present
      | cons next others => exact Option.isSome_of_mem (Entry.bareAt?_of_append present (List.cons_ne_nil next others))
    exact ih (locate_join located isFileName first) restNames present

theorem hasFile_iff (there : system.tree.at? location = some entry) : entry.HasFile names ↔
    ∃ content modified, system.look? (location ++ names) = some (.file content modified) := by
  simp only [Entry.HasFile, look?_eq_file_iff, Entry.at?_append, there, Option.bind_some]

theorem Change.isProper (change : system.Change after) (proper : system.tree.IsProper) : after.tree.IsProper := by
  obtain ⟨location, name, entry, isFileName, puts⟩ := change
  rw [puts.tree]
  exact proper.alter isFileName (.of_bare puts.isBare) location

theorem isProper_of_changes (changes : Relation.ReflTransGen Change system after) (proper : system.tree.IsProper) :
    after.tree.IsProper := by
  induction changes with
  | refl => exact proper
  | tail _ last ih => exact last.isProper ih

/-- Files are the same, but in directories of artifacts. -/
def SameFiles (system after : FileSystem) : Prop :=
  ∀ location, Artifact.directoryName ∉ location.dropLast → ∀ content modified,
    after.look? location = some (.file content modified) ↔ system.look? location = some (.file content modified)

namespace SameFiles

theorem symm (same : system.SameFiles after) : after.SameFiles system :=
  fun location outside content modified => (same location outside content modified).symm

theorem look?_eq (same : system.SameFiles after) (outside : Artifact.directoryName ∉ location.dropLast)
    (present : (system.look? location).isSome = true) (still : (after.look? location).isSome = true) :
    after.look? location = system.look? location := by
  rcases look?_cases present with ⟨content, modified, isFile⟩ | isDirectory
  · rw [isFile, same location outside, isFile]
  · rcases look?_cases still with ⟨content, modified, isFile⟩ | stillDirectory
    · rw [isFile, (same location outside content modified).mp isFile]
    · exact stillDirectory.trans isDirectory.symm

theorem readText_eq (same : system.SameFiles after) (sameWay : after.locate path = system.locate path)
    (outside : Artifact.directoryName ∉ (spelled path).dropLast) :
    after.readText path = system.readText path ∧ after.modified path = system.modified path := by
  refine readText_congr sameWay fun location located => ?_
  refine same.look?_eq ?_ (isSome_of_locate located) (isSome_of_locate (sameWay.trans located))
  rwa [location_of_locate located]

end SameFiles

end FileSystem

namespace SourceFilter

open FileSystem

variable {filter : SourceFilter} {system after : FileSystem} {base path : Path} {entry other : Entry}
  {location names : List String} {found otherFound : List Path}

theorem spelled_below (base : Path) (areNames : ∀ name ∈ names, Path.IsFileName name) :
    spelled (base.below names) = spelled base ++ names := by
  have ofNames (location : List String) : (names.map Component.name).foldl enter location = location ++ names := by
    induction names generalizing location with
    | nil => simp
    | cons name rest ih =>
      rw [List.map_cons, List.foldl_cons, ih (List.forall_mem_cons.mp areNames).2, enter, List.append_assoc]
      rfl
  have whole : spelled (base.below names) = (base.below names).components.foldl enter [] := rfl
  rw [whole, Path.components_below base areNames, List.foldl_append, ofNames]
  rfl

/-- No source lies in a directory of artifacts. -/
theorem outside_of_isSource (located : system.locate base = .ok location)
    (areNames : ∀ name ∈ names, Path.IsFileName name) (isSource : filter.isSource (base.below names) = true) :
    Artifact.directoryName ∉ (location ++ names).dropLast := by
  have notThere := not_mem_spelled_of_isSource isSource
  rw [spelled_below base areNames, ← location_of_locate located] at notThere
  exact fun member => notThere (List.dropLast_subset _ member)

theorem exists_entry (located : system.locate base = .ok location) :
    ∃ entry, system.entry base = .ok entry ∧ system.tree.at? location = some entry := by
  have present := isSome_of_locate located
  rw [look?, Entry.bareAt?, Option.isSome_map] at present
  obtain ⟨entry, isEntry⟩ := Option.isSome_iff_exists.mp present
  exact ⟨entry, by simp [FileSystem.entry, located, isEntry, bind, Except.bind, pure, Except.pure], isEntry⟩

theorem mem_scan_of_sameFiles (same : system.SameFiles after) (proper : system.tree.IsProper)
    (properAfter : after.tree.IsProper) (located : system.locate base = .ok location)
    (stillLocated : after.locate base = .ok location) (scanned : filter.scan system base = .ok found)
    (otherScanned : filter.scan after base = .ok otherFound) (member : path ∈ found) : path ∈ otherFound := by
  obtain ⟨entry, isEntry, there⟩ := exists_entry located
  obtain ⟨other, isOther, stillThere⟩ := exists_entry stillLocated
  obtain ⟨names, isFile, rfl, isSource, leads⟩ := (mem_scan isEntry (proper.at? there) scanned).mp member
  have outside := outside_of_isSource located ((proper.at? there).isFileName isFile) isSource
  have stillFile : other.HasFile names := by
    rw [hasFile_iff there] at isFile
    rw [hasFile_iff stillThere]
    simpa only [same _ outside] using isFile
  exact (mem_scan isOther (properAfter.at? stillThere) otherScanned).mpr ⟨names, stillFile, rfl, isSource, leads⟩

theorem scan_unchanged (same : system.SameFiles after) (proper : system.tree.IsProper)
    (properAfter : after.tree.IsProper) (sameWay : after.locate base = system.locate base) :
    filter.scan after base = filter.scan system base := by
  cases located : system.locate base with
  | error error =>
    have stillLost := sameWay.trans located
    simp [scan, entry, located, stillLost, bind, Except.bind]
  | ok location =>
    have stillLocated := sameWay.trans located
    obtain ⟨entry, isEntry, there⟩ := exists_entry located
    obtain ⟨other, isOther, stillThere⟩ := exists_entry stillLocated
    have scanned := scan_of_entry filter isEntry
    have otherScanned := scan_of_entry filter isOther
    rw [scanned, otherScanned, Except.ok.injEq]
    -- The trees may differ in shape, so the lists are compared by what is in them and by their order.
    refine Path.eq_of_pairwise_lt (ordered_scan isOther (properAfter.at? stillThere) otherScanned)
      (ordered_scan isEntry (proper.at? there) scanned) fun path => ⟨?_, ?_⟩
    · exact mem_scan_of_sameFiles same.symm properAfter proper stillLocated located otherScanned scanned
    · exact mem_scan_of_sameFiles same proper properAfter located stillLocated scanned otherScanned

/-- What a scan finds is read as before. -/
theorem readText_of_mem_scan (same : system.SameFiles after) (proper : system.tree.IsProper)
    (sameWay : after.locate base = system.locate base) (scanned : filter.scan system base = .ok found)
    (member : path ∈ found) : after.readText path = system.readText path := by
  cases located : system.locate base with
  | error error => simp [scan, entry, located, bind, Except.bind] at scanned
  | ok location =>
    obtain ⟨entry, isEntry, there⟩ := exists_entry located
    obtain ⟨names, isFile, rfl, isSource, -⟩ := (mem_scan isEntry (proper.at? there) scanned).mp member
    have areNames := (proper.at? there).isFileName isFile
    have outside := outside_of_isSource located areNames isSource
    obtain ⟨content, modified, isThere⟩ := (hasFile_iff there).mp isFile
    have stillThere := (same _ outside content modified).mpr isThere
    have onward := locate_below located areNames (Option.isSome_of_mem isThere)
    have stillOnward := locate_below (sameWay.trans located) areNames (Option.isSome_of_mem stillThere)
    refine (readText_congr (stillOnward.trans onward.symm) fun reached isReached => ?_).1
    obtain rfl := Except.ok.inj (onward.symm.trans isReached)
    exact stillThere.trans isThere.symm

end SourceFilter

namespace Compilation

namespace QueryCompiler

open FileSystem

variable {compiler : QueryCompiler} {system after : FileSystem}

theorem sourceDocuments_unchanged (same : system.SameFiles after) (proper : system.tree.IsProper)
    (properAfter : after.tree.IsProper)
    (sameWay : after.locate compiler.sources = system.locate compiler.sources) :
    compiler.sourceDocuments after = compiler.sourceDocuments system := by
  have sameScan : compiler.filter.scan after compiler.sources = compiler.filter.scan system compiler.sources :=
    SourceFilter.scan_unchanged same proper properAfter sameWay
  unfold sourceDocuments sourceFiles
  rw [sameScan]
  cases scanned : compiler.filter.scan system compiler.sources with
  | error error => rfl
  | ok paths =>
    have sameRead : paths.mapM (compiler.readSource after) = paths.mapM (compiler.readSource system) := by
      refine mapM_congr fun path member => ?_
      rw [readSource, readSource, SourceFilter.readText_of_mem_scan same proper sameWay scanned member]
    simp only [bind, Except.bind, sameRead]

/-- A pass gives the same as before if the directory of the sources and the schema are where they were, and so does
another pass after one before. -/
theorem compileAll_unchanged (same : system.SameFiles after) (proper : system.tree.IsProper)
    (properAfter : after.tree.IsProper)
    (sourcesWay : after.locate compiler.sources = system.locate compiler.sources)
    (schemaWay : after.locate compiler.schema.path = system.locate compiler.schema.path)
    (outside : Artifact.directoryName ∉ (spelled compiler.schema.path).dropLast) :
    compiler.compileAll after = compiler.compileAll system ∧
      (compiler.compileAll system).2.compileAll after = compiler.compileAll system := by
  -- For every cache of this path, since the second pass starts with what the first has kept.
  have unchanged {cache : SchemaCache} (samePath : cache.path = compiler.schema.path) :
      { compiler with schema := cache }.compileAll after = { compiler with schema := cache }.compileAll system := by
    rw [← samePath] at schemaWay outside
    obtain ⟨sameText, sameTime⟩ := same.readText_eq schemaWay outside
    refine compileAll_congr sameText sameTime (sourceDocuments_unchanged same proper properAfter ?_)
    exact sourcesWay
  refine ⟨unchanged rfl, ?_⟩
  have again := compiler.compileAll_compileAll system
  rw [(compiler.compileAll_eq system).2, (compiler.loadSchema_eq system).2] at again ⊢
  rw [unchanged (compiler.schema.path_load system), again]

end QueryCompiler

end Compilation

end SiteQuery
