import SiteQuery.Proofs.Graphql.Collected
import SiteQuery.Proofs.Sources.Walk

/-!
What a scan reads, and what is a source by its path.

A scan finds the files that are sources by their paths, but for those that lie in a hidden directory, or in one that an
ignored pattern matches: `SourceFilter.scanned_iff_isSource`. The path of such a file does not tell.
-/

namespace SiteQuery.SourceFilter

def matchesPattern (filter : SourceFilter) (path : Path) : Bool := filter.ignoredPatterns.any (·.isMatch path.text)

variable {filter : SourceFilter} {base path : Path} {entry : Entry} {names : List String} {system : FileSystem}
  {found : List Path}

theorem isIgnored_eq_false_iff : filter.isIgnored path = false ↔
    (∀ ignored ∈ filter.ignoredPaths, path.startsWith ignored = false) ∧ filter.matchesPattern path = false := by
  simp [isIgnored, matchesPattern]

theorem isSource_iff : filter.isSource path = true ↔
    isTemporary path = false ∧ filter.isIgnored path = false ∧
      (∀ component ∈ path.components, isSkipped component = false) ∧
      path.extension?.any filter.extensions.contains = true := by
  simp [isSource, and_assoc]

theorem startsWith_iff {start : Path} : path.startsWith start = true ↔ start.components <+: path.components :=
  List.isPrefixOf_iff_prefix

/-- What leads to a source is ignored only by a pattern, since what is below an ignored path is ignored too. -/
theorem isIgnored_of_isSource (areNames : ∀ name ∈ names, Path.IsFileName name)
    (isSource : filter.isSource (base.below names) = true) :
    filter.isIgnored base = false ↔ filter.matchesPattern base = false := by
  obtain ⟨-, notIgnored, -⟩ := isSource_iff.mp isSource
  have outside := (isIgnored_eq_false_iff.mp notIgnored).1
  rw [isIgnored_eq_false_iff, and_iff_right_iff_imp]
  intro _ ignored isIgnored
  rw [Bool.eq_false_iff, ne_eq, startsWith_iff]
  intro inside
  have alsoInside : (base.below names).startsWith ignored = true := by
    rw [startsWith_iff, Path.components_below base areNames]
    exact inside.trans (List.prefix_append _ _)
  rw [outside ignored isIgnored] at alsoInside
  cases alsoInside

theorem forall_prefix_cons {Item : Type} {item : Item} {items : List Item} {holds : List Item → Prop} :
    (∀ first, first <+: item :: items → holds first) ↔ holds [] ∧ ∀ first, first <+: items → holds (item :: first) := by
  constructor
  · intro all
    exact ⟨all [] List.nil_prefix, fun first before => all _ (List.cons_prefix_cons.mpr ⟨rfl, before⟩)⟩
  · rintro ⟨atStart, onward⟩ first before
    rcases List.prefix_cons_iff.mp before with rfl | ⟨more, rfl, isPrefix⟩
    · exact atStart
    · exact onward more isPrefix

/-- On the way to a source, only directories that are hidden or match a pattern are left out. -/
theorem reaches_iff (areNames : ∀ name ∈ names, Path.IsFileName name)
    (isSource : filter.isSource (base.below names) = true) :
    filter.isIgnored base = false ∧ filter.Reaches base names ↔
      (∀ directory ∈ names.dropLast, isHidden directory = false) ∧
        ∀ first, first <+: names.dropLast → filter.matchesPattern (base.below first) = false := by
  have ofBase := isIgnored_of_isSource areNames isSource
  induction names generalizing base with
  | nil => simp [Reaches, ofBase]
  | cons name rest ih =>
    obtain ⟨isName, restNames⟩ := List.forall_mem_cons.mp areNames
    have onward := isIgnored_of_isSource restNames isSource
    cases rest with
    | nil =>
      have notIgnored : filter.isIgnored (base.join ⟨name⟩) = false := (isSource_iff.mp isSource).2.1
      simp [Reaches, ofBase, notIgnored]
    | cons next others =>
      have notSkipped : name ∉ skippedDirectories := by
        have onTheWay : Component.name name ∈ (base.below (name :: next :: others)).components := by
          rw [Path.components_below base areNames]
          simp
        simpa [isSkipped] using (isSource_iff.mp isSource).2.2.1 _ onTheWay
      have below := ih restNames isSource onward
      rw [List.dropLast_cons_cons, List.forall_mem_cons, forall_prefix_cons, Path.below_nil, Reaches, ofBase]
      simp only [ne_eq, reduceCtorEq, not_false_eq_true, forall_const, notSkipped, and_true, below, Path.below_cons]
      exact ⟨fun ⟨atBase, shown, restShown, onward⟩ => ⟨⟨shown, restShown⟩, atBase, onward⟩,
        fun ⟨⟨shown, restShown⟩, atBase, onward⟩ => ⟨atBase, shown, restShown, onward⟩⟩

/-- A scan finds the files that are sources by their paths, and to which no hidden or ignored directory leads. -/
theorem mem_scan (isEntry : system.entry base = .ok entry) (proper : entry.IsProper)
    (scanned : filter.scan system base = .ok found) : path ∈ found ↔
      ∃ names, entry.HasFile names ∧ path = base.below names ∧ filter.isSource path = true ∧
        (∀ directory ∈ names.dropLast, isHidden directory = false) ∧
        ∀ first, first <+: names.dropLast → filter.matchesPattern (base.below first) = false := by
  obtain rfl := Except.ok.inj ((scan_of_entry filter isEntry).symm.trans scanned)
  have inWalk : path ∈ (if filter.isIgnored base then [] else filter.walk base entry) ↔
      filter.isIgnored base = false ∧ path ∈ filter.walk base entry := by
    cases filter.isIgnored base <;> simp
  rw [(sorted_perm _ _).mem_iff, inWalk, mem_walk proper]
  constructor
  · rintro ⟨notIgnored, names, isFile, rfl, reaches, isSource⟩
    exact ⟨names, isFile, rfl, isSource, (reaches_iff (proper.isFileName isFile) isSource).mp ⟨notIgnored, reaches⟩⟩
  · rintro ⟨names, isFile, rfl, isSource, leads⟩
    obtain ⟨notIgnored, reaches⟩ := (reaches_iff (proper.isFileName isFile) isSource).mpr leads
    exact ⟨notIgnored, names, isFile, rfl, reaches, isSource⟩

/-- A file below the base is found if and only if it is a source by its path, and none of the directories that lead to
it is hidden or matches an ignored pattern. Nothing else is found. -/
theorem scanned_iff_isSource (isEntry : system.entry base = .ok entry) (proper : entry.IsProper)
    (scanned : filter.scan system base = .ok found) :
    (∀ names, entry.HasFile names → (base.below names ∈ found ↔ filter.isSource (base.below names) = true ∧
      (∀ directory ∈ names.dropLast, isHidden directory = false) ∧
      ∀ first, first <+: names.dropLast → filter.matchesPattern (base.below first) = false)) ∧
      ∀ path ∈ found, ∃ names, entry.HasFile names ∧ path = base.below names := by
  refine ⟨fun names isFile => ?_, fun path isFound => ?_⟩
  · rw [mem_scan isEntry proper scanned]
    constructor
    · rintro ⟨others, alsoFile, same, leads⟩
      obtain rfl := Path.below_injective (proper.isFileName isFile) (proper.isFileName alsoFile) same
      exact leads
    · intro leads
      exact ⟨names, isFile, rfl, leads⟩
  · obtain ⟨names, isFile, isBelow, -⟩ := (mem_scan isEntry proper scanned).mp isFound
    exact ⟨names, isFile, isBelow⟩

/-- A directory with empty files of these names. -/
def folder (names : List String) : Entry := .directory (names.map fun name => (name, .file (.text "") 0))

theorem isProper_folder (distinct : names.Nodup) (named : ∀ name ∈ names, Path.IsFileName name) :
    (folder names).IsProper := by
  refine .directory ?_ (by simpa using named) ?_
  · rw [List.map_map]
    exact (List.map_id names).symm ▸ distinct
  · intro pair member
    obtain ⟨name, -, rfl⟩ := List.mem_map.mp member
    exact .file _ _

/-- Pages, and beside them a file of an editor and files in a hidden, in an old and in a foreign directory. -/
def siteEntries : List (String × Entry) :=
  [("pages", folder ["index.js", "index.js~"]), (".cache", folder ["app.js"]), ("legacy", folder ["old.js"]),
    ("node_modules", folder ["lib.js"])]

theorem siteEntries_isProper : (Entry.directory siteEntries).IsProper := by
  refine .directory (by decide) (by decide +kernel) ?_
  simp only [siteEntries, List.forall_mem_cons, List.not_mem_nil, false_imp_iff, forall_const, and_true]
  refine ⟨?_, ?_, ?_, ?_⟩ <;> exact isProper_folder (by decide) (by decide +kernel)

/-- The file system in which the site is the only thing at some location. -/
def siteAt (location : List String) : FileSystem where
  tree := location.foldr (fun name entry => .directory [(name, entry)]) (.directory siteEntries)

def siteFilter : SourceFilter := ofIgnores ⟨"/proj/src"⟩ ["js"] ["**/legacy"]

theorem site_scanned : siteFilter.scan (siteAt ["proj", "src"]) ⟨"/proj/src"⟩ = .ok [⟨"/proj/src/pages/index.js"⟩] :=
  toOption_eq_some (by decide +kernel)

theorem scanned_iff_isSource_site :
    (siteAt ["proj", "src"]).entry ⟨"/proj/src"⟩ = .ok (.directory siteEntries) ∧
      (Entry.directory siteEntries).IsProper ∧
      siteFilter.scan (siteAt ["proj", "src"]) ⟨"/proj/src"⟩ = .ok [⟨"/proj/src/pages/index.js"⟩] ∧
      (Entry.directory siteEntries).HasFile ["pages", "index.js"] ∧
      siteFilter.isSource ⟨"/proj/src/pages/index.js"⟩ = true ∧
      (Entry.directory siteEntries).HasFile ["legacy", "old.js"] ∧
      ¬ ∀ first, first <+: ["legacy"] → siteFilter.matchesPattern (Path.below ⟨"/proj/src"⟩ first) = false := by
  have isEntry : (siteAt ["proj", "src"]).entry ⟨"/proj/src"⟩ = .ok (.directory siteEntries) := rfl
  have isPage : (Entry.directory siteEntries).HasFile ["pages", "index.js"] := ⟨.text "", 0, rfl⟩
  have isOld : (Entry.directory siteEntries).HasFile ["legacy", "old.js"] := ⟨.text "", 0, rfl⟩
  obtain ⟨found, -⟩ := scanned_iff_isSource isEntry siteEntries_isProper site_scanned
  have ofPage := found _ isPage
  have ofOld := found _ isOld
  have pagePath : Path.below ⟨"/proj/src"⟩ ["pages", "index.js"] = ⟨"/proj/src/pages/index.js"⟩ := by decide +kernel
  rw [pagePath] at ofPage
  refine ⟨isEntry, siteEntries_isProper, site_scanned, isPage, (ofPage.mp (List.mem_singleton_self _)).1, isOld, ?_⟩
  intro unmatched
  have wouldBeFound := ofOld.mpr ⟨by decide +kernel, by decide, unmatched⟩
  exact absurd wouldBeFound (by decide +kernel)

/-- By their paths these are sources, but no scan finds what is in a hidden directory or in one that is ignored. -/
theorem site_unscanned :
    siteFilter.scan (siteAt ["proj", "src"]) ⟨"/proj/src"⟩ = .ok [⟨"/proj/src/pages/index.js"⟩] ∧
      ∀ names ∈ [[".cache", "app.js"], ["legacy", "old.js"]], (Entry.directory siteEntries).HasFile names ∧
        siteFilter.isSource (Path.below ⟨"/proj/src"⟩ names) = true ∧
        Path.below ⟨"/proj/src"⟩ names ∉ [(⟨"/proj/src/pages/index.js"⟩ : Path)] := by
  refine ⟨site_scanned, ?_⟩
  simp only [List.forall_mem_cons, List.not_mem_nil, false_imp_iff, forall_const, and_true]
  exact ⟨⟨⟨.text "", 0, rfl⟩, by decide +kernel, by decide +kernel⟩,
    ⟨.text "", 0, rfl⟩, by decide +kernel, by decide +kernel⟩

end SiteQuery.SourceFilter
