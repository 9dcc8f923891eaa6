import Mathlib.Data.Set.List
import SiteQuery.Proofs.Path
import SiteQuery.Proofs.Sources.Agreement

/-!
What a scan lists when all ignored texts are paths.

The files are told by the names from the base on: by the directories on the way, the last name and its extension. Of
the path of the base it matters only that no directory without sources is on it: `SourceFilter.scan_listing`.
-/

namespace SiteQuery

namespace Path

/-- What follows the last dot of a name, unless the name begins there. -/
def HasExtension (name extension : String) : Prop :=
  ∃ stem, stem ≠ [] ∧ '.' ∉ extension.toList ∧ name.toList = stem ++ '.' :: extension.toList

variable {path base : Path} {name extension : String}

theorem splitName_of_hasExtension (has : HasExtension name extension) (notParent : name.toList ≠ ['.', '.']) :
    (splitName name.toList).2 = some extension.toList := by
  obtain ⟨stem, notEmpty, notDotted, isName⟩ := has
  have dots : ∀ c ∈ extension.toList.reverse, (c != '.') = true := by
    intro c member
    rw [bne_iff_ne]
    rintro rfl
    exact notDotted (List.mem_reverse.mp member)
  have reversed : name.toList.reverse = extension.toList.reverse ++ '.' :: stem.reverse := by simp [isName]
  have after : name.toList.reverse.takeWhile (· != '.') = extension.toList.reverse := by
    rw [reversed, List.takeWhile_append_of_pos dots]
    simp
  have before : (name.toList.reverse.drop (extension.toList.reverse.length + 1)).reverse = stem := by
    rw [reversed, List.drop_append]
    simp
  have shorter : ¬ extension.toList.reverse.length = name.toList.length := by
    rw [isName, List.length_append, List.length_cons, List.length_reverse]
    omega
  have isParent : (name.toList == ['.', '.']) = false := beq_eq_false_iff_ne.mpr notParent
  have noStem : stem.isEmpty = false := by simpa using notEmpty
  simp only [splitName, isParent, after, before, noStem, shorter, decide_false, Bool.or_false, Bool.false_eq_true, if_false,
    List.reverse_reverse]

theorem hasExtension_of_splitName (isSplit : (splitName name.toList).2 = some extension.toList) :
    HasExtension name extension := by
  obtain ⟨after, isAfter⟩ : ∃ after, name.toList.reverse.takeWhile (· != '.') = after := ⟨_, rfl⟩
  have notDotted : '.' ∉ after := by
    intro member
    have isTaken : '.' ∈ name.toList.reverse.takeWhile (· != '.') := isAfter ▸ member
    simpa using List.mem_takeWhile_imp isTaken
  have whole := List.takeWhile_append_dropWhile (p := (· != '.')) (l := name.toList.reverse)
  unfold splitName at isSplit
  rw [isAfter] at isSplit whole
  split at isSplit
  · cases isSplit
  · dsimp only at isSplit
    split at isSplit
    · cases isSplit
    · rename_i dotted
      rw [Bool.not_eq_true, Bool.or_eq_false_iff, decide_eq_false_iff_not, List.isEmpty_eq_false_iff] at dotted
      obtain ⟨notAll, hasStem⟩ := dotted
      have isExtension : after.reverse = extension.toList := Option.some.inj isSplit
      cases rest : name.toList.reverse.dropWhile (· != '.') with
      | nil =>
        rw [rest, List.append_nil] at whole
        exact absurd (by rw [whole, List.length_reverse]) notAll
      | cons c stem =>
        have isDot : c = '.' := by
          have stops := List.head?_dropWhile_not (· != '.') name.toList.reverse
          simpa [rest] using stops
        subst isDot
        rw [rest] at whole
        refine ⟨stem.reverse, ?_, ?_, ?_⟩
        · rw [← whole, List.drop_append] at hasStem
          simpa using hasStem
        · rwa [← isExtension, List.mem_reverse]
        · have forwards := congrArg List.reverse whole
          rw [List.reverse_append, List.reverse_cons, isExtension, List.reverse_reverse] at forwards
          simpa using forwards.symm

theorem extension?_eq_some_iff (named : path.fileName? = some name) (isFileName : IsFileName name) :
    path.extension? = some extension ↔ HasExtension name extension := by
  have ofList : path.extension? = some extension ↔ (splitName name.toList).2 = some extension.toList := by
    rw [extension?, named, Option.bind_some]
    cases (splitName name.toList).2 with
    | none => simp
    | some letters =>
      rw [Option.map_some, Option.some.injEq, Option.some.injEq]
      exact ⟨fun same => by rw [← same, String.toList_ofList], fun same => by rw [same, String.ofList_toList]⟩
  have notParent : name.toList ≠ ['.', '.'] := by
    intro isParent
    have isComponent := isFileName.isComponent
    simp [isParent, componentOf] at isComponent
  rw [ofList]
  exact ⟨hasExtension_of_splitName, fun has => splitName_of_hasExtension has notParent⟩

theorem fileName?_below (base : Path) {names : List String} (areNames : ∀ other ∈ names ++ [name], IsFileName other) :
    (base.below (names ++ [name])).fileName? = some name := by
  rw [fileName?, components_below base areNames, List.map_append, List.map_singleton, ← List.append_assoc,
    List.getLast?_concat]

theorem compare_below (base : Path) {names others : List String} (areNames : ∀ name ∈ names, IsFileName name)
    (otherNames : ∀ name ∈ others, IsFileName name) :
    (base.below names).compare (base.below others) = compareComponents (names.map .name) (others.map .name) := by
  rw [compare, components_below base areNames, components_below base otherNames, compareComponents_append]

/-- Below a base, a relative path leads to what its own components lead to. -/
theorem startsWith_join_iff {names : List String} {relative : Path} (areNames : ∀ name ∈ names, IsFileName name)
    (notEmpty : base.text ≠ "") (isRelative : relative.isAbsolute = false) :
    (base.below names).startsWith (base.join relative) = true ↔
      relative.parts.filterMap componentOf <+: names.map .name := by
  rw [SourceFilter.startsWith_iff, components_below base areNames, components_join notEmpty isRelative]
  exact List.prefix_append_right_inj _

end Path

namespace SourceFilter

/-- The names that editors give to locks, backups and swap files. -/
def IsEditorName (name : String) : Prop :=
  ".#".toList <+: name.toList ∨ "~".toList <:+ name.toList ∨ ".swp".toList <:+ name.toList

/-- A directory that holds no sources of the project. -/
def IsForeign (directory : String) : Prop :=
  ".".toList <+: directory.toList ∨ directory = "node_modules" ∨ directory = "__generated__"

/-- A file that a scan lists, given by the directories that lead to it from the base and by its name. -/
structure Lists (base : Path) (extensions ignores directories : List String) (name : String) : Prop where
  notIgnored : ∀ ignore ∈ ignores, (base.below (directories ++ [name])).startsWith (base.join ⟨ignore⟩) = false
  notForeign : ∀ directory ∈ directories, ¬ IsForeign directory
  notEditorName : ¬ IsEditorName name
  hasExtension : ∃ extension ∈ extensions, Path.HasExtension name extension

/-- No directory of dependencies or of artifacts is on the path. -/
def IsOutside (path : Path) : Prop := ∀ component ∈ path.components, isSkipped component = false

instance : DecidablePred IsOutside :=
  fun path => inferInstanceAs (Decidable (∀ component ∈ path.components, isSkipped component = false))

variable {base path other : Path} {entry : Entry} {entries : List (String × Entry)} {system otherSystem : FileSystem}
  {extensions ignores directories names : List String} {found otherFound : List Path} {name : String}

theorem isTemporary_eq_false_iff (named : path.fileName? = some name) :
    isTemporary path = false ↔ ¬ IsEditorName name := by
  have endsSo : (name.toList.getLast? == some '~') = true ↔ "~".toList <:+ name.toList := by
    rw [beq_iff_eq, List.getLast?_eq_some_iff]
    constructor
    · rintro ⟨before, isName⟩
      exact ⟨before, isName.symm⟩
    · rintro ⟨before, isName⟩
      exact ⟨before, isName.symm⟩
  rw [← Bool.not_eq_true, isTemporary, named, IsEditorName, not_iff_not]
  simp only [Bool.or_eq_true, List.isPrefixOf_iff_prefix, List.isSuffixOf_iff_suffix, endsSo, or_assoc]

theorem not_isForeign_iff : ¬ IsForeign name ↔ isHidden name = false ∧ isSkipped (.name name) = false := by
  have startsSo : isHidden name = true ↔ ".".toList <+: name.toList := by
    rw [isHidden, beq_iff_eq, List.head?_eq_some_iff]
    constructor
    · rintro ⟨rest, isName⟩
      exact ⟨rest, isName.symm⟩
    · rintro ⟨rest, isName⟩
      exact ⟨rest, isName.symm⟩
  have skipped : isSkipped (.name name) = true ↔ name = "node_modules" ∨ name = "__generated__" := by
    simp [isSkipped, skippedDirectories, Artifact.directoryName]
  rw [IsForeign, ← startsSo, ← skipped, not_or, Bool.not_eq_true, Bool.not_eq_true]

/-- A name with an extension is none of those that directories without sources have. -/
theorem isSkipped_of_hasExtension {extension : String} (has : Path.HasExtension name extension) :
    isSkipped (.name name) = false := by
  obtain ⟨stem, -, -, isName⟩ := has
  have dotted : '.' ∈ name.toList := by simp [isName]
  have notDotted : ∀ directory ∈ skippedDirectories, '.' ∉ directory.toList := by decide
  simp only [isSkipped, List.contains_eq_mem, decide_eq_false_iff_not]
  exact fun member => notDotted name member dotted

theorem matchesPattern_ofIgnores (literal : ∀ ignore ∈ ignores, isPattern ignore = false) :
    (ofIgnores base extensions ignores).matchesPattern path = false := by
  have none : ignores.filter isPattern = [] := by simpa using literal
  simp [matchesPattern, ofIgnores, none]

theorem isIgnored_ofIgnores (literal : ∀ ignore ∈ ignores, isPattern ignore = false) :
    (ofIgnores base extensions ignores).isIgnored path = false ↔
      ∀ ignore ∈ ignores, path.startsWith (base.join ⟨ignore⟩) = false := by
  have all : ignores.filter (!isPattern ·) = ignores := by simpa using literal
  rw [isIgnored_eq_false_iff, matchesPattern_ofIgnores literal]
  simp [ofIgnores, all]

theorem isSource_ofIgnores (literal : ∀ ignore ∈ ignores, isPattern ignore = false)
    (areNames : ∀ other ∈ directories ++ [name], Path.IsFileName other) :
    (ofIgnores base extensions ignores).isSource (base.below (directories ++ [name])) = true ∧
        (∀ directory ∈ directories, isHidden directory = false) ↔
      IsOutside base ∧ Lists base extensions ignores directories name := by
  have named := Path.fileName?_below base areNames
  have isFileName : Path.IsFileName name := areNames name (by simp)
  have extended : (base.below (directories ++ [name])).extension?.any
      (ofIgnores base extensions ignores).extensions.contains = true ↔
        ∃ extension ∈ extensions, Path.HasExtension name extension := by
    simp only [Option.any_eq_true, Path.extension?_eq_some_iff named isFileName, ofIgnores, List.contains_eq_mem,
      decide_eq_true_eq, and_comm]
  rw [isSource_iff, isTemporary_eq_false_iff named, isIgnored_ofIgnores literal, extended,
    Path.components_below base areNames]
  constructor
  · rintro ⟨⟨saved, notIgnored, outside, hasExtension⟩, shown⟩
    have baseOutside : IsOutside base := fun component member => outside component (List.mem_append_left _ member)
    refine ⟨baseOutside, notIgnored, fun directory member => ?_, saved, hasExtension⟩
    exact not_isForeign_iff.mpr ⟨shown directory member, outside _ (by simp [member])⟩
  · rintro ⟨outside, notIgnored, notForeign, saved, hasExtension⟩
    have shown : ∀ directory ∈ directories, isHidden directory = false :=
      fun directory member => (not_isForeign_iff.mp (notForeign directory member)).1
    refine ⟨⟨saved, notIgnored, ?_, hasExtension⟩, shown⟩
    intro component member
    simp only [List.map_append, List.mem_append, List.map_cons, List.map_nil, List.mem_singleton, List.mem_map] at member
    rcases member with ofBase | ⟨directory, inDirectories, rfl⟩ | rfl
    · exact outside component ofBase
    · exact (not_isForeign_iff.mp (notForeign directory inDirectories)).2
    · obtain ⟨extension, -, has⟩ := hasExtension
      exact isSkipped_of_hasExtension has

theorem mem_scan_ofIgnores (isEntry : system.entry base = .ok (.directory entries))
    (proper : (Entry.directory entries).IsProper) (literal : ∀ ignore ∈ ignores, isPattern ignore = false)
    (scanned : (ofIgnores base extensions ignores).scan system base = .ok found) : path ∈ found ↔
      IsOutside base ∧ ∃ directories name, (Entry.directory entries).HasFile (directories ++ [name]) ∧
        path = base.below (directories ++ [name]) ∧ Lists base extensions ignores directories name := by
  rw [mem_scan isEntry proper scanned]
  constructor
  · rintro ⟨names, isFile, rfl, isSource, shown, -⟩
    rcases List.eq_nil_or_concat names with rfl | ⟨directories, name, rfl⟩
    · simp at isFile
    · rw [List.concat_eq_append] at isFile isSource shown ⊢
      rw [List.dropLast_concat] at shown
      obtain ⟨outside, lists⟩ := (isSource_ofIgnores literal (proper.isFileName isFile)).mp ⟨isSource, shown⟩
      exact ⟨outside, directories, name, isFile, rfl, lists⟩
  · rintro ⟨outside, directories, name, isFile, rfl, lists⟩
    obtain ⟨isSource, shown⟩ := (isSource_ofIgnores literal (proper.isFileName isFile)).mpr ⟨outside, lists⟩
    refine ⟨directories ++ [name], isFile, rfl, isSource, ?_, fun first _ => matchesPattern_ofIgnores literal⟩
    rwa [List.dropLast_concat]

theorem ordered_scan {filter : SourceFilter} (isEntry : system.entry base = .ok entry) (proper : entry.IsProper)
    (scanned : filter.scan system base = .ok found) : found.Pairwise fun a b => a.compare b = .lt := by
  obtain rfl := Except.ok.inj ((scan_of_entry filter isEntry).symm.trans scanned)
  have apart : (if filter.isIgnored base then [] else filter.walk base entry).Pairwise
      fun a b => a.components ≠ b.components := by
    cases filter.isIgnored base
    · exact apart_walk proper
    · exact .nil
  have alsoApart := (sorted_perm (fun a b : Path => a.compare b != .gt) _).symm.pairwise apart Ne.symm
  have weaklyOrdered := pairwise_sorted _ Path.compare_total Path.compare_ne_gt_trans
    (if filter.isIgnored base then [] else filter.walk base entry)
  refine weaklyOrdered.imp₂ (fun a b before different => ?_) alsoApart
  cases order : a.compare b with
  | lt => rfl
  | eq => exact absurd (Path.same_iff.mp (Path.compare_eq_iff_same.mp order)) different
  | gt => simp [order] at before

theorem text_ne_empty_of_entry (isEntry : system.entry base = .ok entry) : base.text ≠ "" := by
  intro isEmpty
  simp [FileSystem.entry, FileSystem.locate, isEmpty, bind, Except.bind] at isEntry

/-- Ignored texts that are relative lead to the same places below any base. -/
theorem Lists.rebase (lists : Lists base extensions ignores directories name)
    (areNames : ∀ other ∈ directories ++ [name], Path.IsFileName other) (notEmpty : base.text ≠ "")
    (otherNotEmpty : other.text ≠ "") (relative : ∀ ignore ∈ ignores, Path.isAbsolute ⟨ignore⟩ = false) :
    Lists other extensions ignores directories name := by
  refine ⟨fun ignore member => ?_, lists.notForeign, lists.notEditorName, lists.hasExtension⟩
  have notIgnored := lists.notIgnored ignore member
  have isRelative := relative ignore member
  rw [Bool.eq_false_iff, ne_eq, Path.startsWith_join_iff areNames notEmpty isRelative] at notIgnored
  rwa [Bool.eq_false_iff, ne_eq, Path.startsWith_join_iff areNames otherNotEmpty isRelative]

/-- What is listed below a base is listed below another one with the same tree. -/
theorem mem_scan_of_rebase (isEntry : system.entry base = .ok (.directory entries))
    (otherEntry : otherSystem.entry other = .ok (.directory entries)) (proper : (Entry.directory entries).IsProper)
    (literal : ∀ ignore ∈ ignores, isPattern ignore = false)
    (relative : ∀ ignore ∈ ignores, Path.isAbsolute ⟨ignore⟩ = false) (otherOutside : IsOutside other)
    (scanned : (ofIgnores base extensions ignores).scan system base = .ok found)
    (otherScanned : (ofIgnores other extensions ignores).scan otherSystem other = .ok otherFound)
    (isFile : (Entry.directory entries).HasFile names) (isFound : base.below names ∈ found) :
    other.below names ∈ otherFound := by
  obtain ⟨-, directories, name, alsoFile, same, lists⟩ := (mem_scan_ofIgnores isEntry proper literal scanned).mp isFound
  have areNames := proper.isFileName alsoFile
  obtain rfl := Path.below_injective (proper.isFileName isFile) areNames same
  have otherLists := lists.rebase areNames (text_ne_empty_of_entry isEntry) (text_ne_empty_of_entry otherEntry) relative
  exact (mem_scan_ofIgnores otherEntry proper literal otherScanned).mpr
    ⟨otherOutside, directories, name, isFile, rfl, otherLists⟩

theorem exists_places {filter : SourceFilter} (isEntry : system.entry base = .ok entry) (proper : entry.IsProper)
    (scanned : filter.scan system base = .ok found) :
    ∃ places : List (List String), found = places.map base.below ∧ ∀ names ∈ places, entry.HasFile names := by
  have inRange : found ∈ Set.range (List.map fun file : { names // entry.HasFile names } => base.below file.val) := by
    rw [Set.range_list_map]
    intro path isFound
    obtain ⟨names, isFile, isBelow, -⟩ := (mem_scan isEntry proper scanned).mp isFound
    exact ⟨⟨names, isFile⟩, isBelow.symm⟩
  obtain ⟨files, isFound⟩ := inRange
  refine ⟨files.map Subtype.val, by rw [List.map_map, ← isFound]; rfl, ?_⟩
  intro names member
  obtain ⟨file, -, rfl⟩ := List.mem_map.mp member
  exact file.property

/-- A scan lists the files that are sources by the names from the base on, in order and once each, unless the base is
itself in a directory without sources. Another base with the same tree gives the same listing as seen from there. -/
theorem scan_listing (isEntry : system.entry base = .ok (.directory entries))
    (proper : (Entry.directory entries).IsProper) (literal : ∀ ignore ∈ ignores, isPattern ignore = false)
    (scanned : (ofIgnores base extensions ignores).scan system base = .ok found) :
    found.Pairwise (fun a b => a.compare b = .lt) ∧
      (∀ path, path ∈ found ↔ IsOutside base ∧
        ∃ directories name, (Entry.directory entries).HasFile (directories ++ [name]) ∧
          path = base.below (directories ++ [name]) ∧ Lists base extensions ignores directories name) ∧
      ∀ (otherSystem : FileSystem) (other : Path) (otherFound : List Path),
        otherSystem.entry other = .ok (.directory entries) →
        (ofIgnores other extensions ignores).scan otherSystem other = .ok otherFound →
        IsOutside base → IsOutside other → (∀ ignore ∈ ignores, Path.isAbsolute ⟨ignore⟩ = false) →
          ∃ places : List (List String), found = places.map base.below ∧ otherFound = places.map other.below := by
  have ordered := ordered_scan isEntry proper scanned
  refine ⟨ordered, fun path => mem_scan_ofIgnores isEntry proper literal scanned, ?_⟩
  intro otherSystem other otherFound otherEntry otherScanned outside otherOutside relative
  have otherOrdered := ordered_scan otherEntry proper otherScanned
  obtain ⟨places, rfl, areFiles⟩ := exists_places isEntry proper scanned
  refine ⟨places, rfl, Path.eq_of_pairwise_lt otherOrdered ?_ fun path => ⟨fun isFound => ?_, fun isFound => ?_⟩⟩
  · rw [List.pairwise_map] at ordered ⊢
    refine ordered.imp_of_mem fun {names others} member otherMember before => ?_
    have areNames := proper.isFileName (areFiles names member)
    have otherNames := proper.isFileName (areFiles others otherMember)
    rwa [Path.compare_below other areNames otherNames, ← Path.compare_below base areNames otherNames]
  · obtain ⟨names, isFile, rfl, -⟩ := (mem_scan otherEntry proper otherScanned).mp isFound
    have alsoFound := mem_scan_of_rebase otherEntry isEntry proper literal relative outside otherScanned scanned isFile
      isFound
    obtain ⟨others, member, same⟩ := List.mem_map.mp alsoFound
    obtain rfl := Path.below_injective (proper.isFileName (areFiles others member)) (proper.isFileName isFile) same
    exact List.mem_map_of_mem member
  · obtain ⟨names, member, rfl⟩ := List.mem_map.mp isFound
    exact mem_scan_of_rebase isEntry otherEntry proper literal relative otherOutside scanned otherScanned
      (areFiles names member) (List.mem_map_of_mem member)

theorem site_listed : (ofIgnores ⟨"/proj/src"⟩ ["js"] ["legacy"]).scan (siteAt ["proj", "src"]) ⟨"/proj/src"⟩ =
    .ok [⟨"/proj/src/pages/index.js"⟩] := toOption_eq_some (by decide +kernel)

theorem scan_listing_site :
    (siteAt ["proj", "src"]).entry ⟨"/proj/src"⟩ = .ok (.directory siteEntries) ∧
      (Entry.directory siteEntries).IsProper ∧
      isPattern "legacy" = false ∧ Path.isAbsolute ⟨"legacy"⟩ = false ∧ IsOutside ⟨"/proj/src"⟩ ∧ IsOutside ⟨"/work"⟩ ∧
      (⟨"/proj/src/legacy/old.js"⟩ ∈ [(⟨"/proj/src/pages/index.js"⟩ : Path)] ↔ IsOutside ⟨"/proj/src"⟩ ∧
        ∃ directories name, (Entry.directory siteEntries).HasFile (directories ++ [name]) ∧
          ⟨"/proj/src/legacy/old.js"⟩ = Path.below ⟨"/proj/src"⟩ (directories ++ [name]) ∧
          Lists ⟨"/proj/src"⟩ ["js"] ["legacy"] directories name) ∧
      ∃ places : List (List String), [(⟨"/proj/src/pages/index.js"⟩ : Path)] = places.map (Path.below ⟨"/proj/src"⟩) ∧
        [(⟨"/work/pages/index.js"⟩ : Path)] = places.map (Path.below ⟨"/work"⟩) := by
  have isEntry : (siteAt ["proj", "src"]).entry ⟨"/proj/src"⟩ = .ok (.directory siteEntries) := rfl
  have otherEntry : (siteAt ["work"]).entry ⟨"/work"⟩ = .ok (.directory siteEntries) := rfl
  have literal : ∀ ignore ∈ ["legacy"], isPattern ignore = false := by decide
  have relative : ∀ ignore ∈ ["legacy"], Path.isAbsolute ⟨ignore⟩ = false := by decide
  have outside : IsOutside ⟨"/proj/src"⟩ := by decide +kernel
  have otherOutside : IsOutside ⟨"/work"⟩ := by decide +kernel
  have otherListed : (ofIgnores ⟨"/work"⟩ ["js"] ["legacy"]).scan (siteAt ["work"]) ⟨"/work"⟩ =
      .ok [⟨"/work/pages/index.js"⟩] := toOption_eq_some (by decide +kernel)
  obtain ⟨-, lists, same⟩ := scan_listing isEntry siteEntries_isProper literal site_listed
  exact ⟨isEntry, siteEntries_isProper, literal _ (by simp), relative _ (by simp), outside, otherOutside, lists _,
    same _ _ _ otherEntry otherListed outside otherOutside relative⟩

/-- The same site below a directory of dependencies: the walk enters it, but then no file is taken for a source. -/
theorem site_unlisted :
    (ofIgnores ⟨"/proj/node_modules/app"⟩ ["js"] ["legacy"]).scan (siteAt ["proj", "node_modules", "app"])
        ⟨"/proj/node_modules/app"⟩ = .ok [] ∧
      (Entry.directory siteEntries).HasFile ["pages", "index.js"] ∧
      Lists ⟨"/proj/node_modules/app"⟩ ["js"] ["legacy"] ["pages"] "index.js" := by
  have lists : Lists ⟨"/proj/node_modules/app"⟩ ["js"] ["legacy"] ["pages"] "index.js" := by
    refine ⟨by decide +kernel, ?_, ?_, "js", by simp, "index".toList, by decide, by decide, by decide⟩
    · unfold IsForeign
      decide
    · unfold IsEditorName
      decide
  exact ⟨toOption_eq_some (by decide +kernel), ⟨.text "", 0, rfl⟩, lists⟩

end SourceFilter

end SiteQuery
