import SiteQuery.Proofs.Files.Spelling
import SiteQuery.Proofs.Files.Trees
import SiteQuery.Proofs.Sorting
import SiteQuery.Sources.Scan

/-!
What a walk through directories finds.

A file is found if it is a source by its path, and nothing on the way to it is left out: `SourceFilter.mem_walk`.
-/

namespace SiteQuery

namespace Entry

/-- The names in a directory are distinct, and such as files can have. -/
inductive IsProper : Entry → Prop
  | file (content : Content) (modified : Nat) : IsProper (.file content modified)
  | directory {entries : List (String × Entry)} (distinct : (entries.map (·.1)).Nodup)
      (named : ∀ pair ∈ entries, Path.IsFileName pair.1) (proper : ∀ pair ∈ entries, IsProper pair.2) :
      IsProper (.directory entries)

def HasFile (entry : Entry) (names : List String) : Prop :=
  ∃ content modified, entry.at? names = some (.file content modified)

variable {entry : Entry} {entries : List (String × Entry)} {name : String} {names : List String}

theorem lookup?_eq_some_iff (distinct : (entries.map (·.1)).Nodup) :
    lookup? name entries = some entry ↔ (name, entry) ∈ entries := by
  induction entries with
  | nil => simp [lookup?]
  | cons first rest ih =>
    obtain ⟨key, old⟩ := first
    have fresh : key ∉ rest.map (·.1) := (List.nodup_cons.mp distinct).1
    rw [lookup?_cons, List.mem_cons, Prod.mk.injEq]
    by_cases here : key = name
    · subst here
      have notLater : (key, entry) ∉ rest := fun inRest => fresh (List.mem_map_of_mem inRest)
      simp [notLater, eq_comm]
    · rw [if_neg here, ih (List.nodup_cons.mp distinct).2]
      simp [Ne.symm here]

@[simp] theorem hasFile_nil : entry.HasFile [] ↔ ∃ content modified, entry = .file content modified := by
  simp [HasFile, at?]

@[simp] theorem hasFile_file_cons (content : Content) (modified : Nat) (name : String) (rest : List String) :
    ¬ (file content modified).HasFile (name :: rest) := by
  simp [HasFile, at?]

theorem hasFile_directory_cons (distinct : (entries.map (·.1)).Nodup) {rest : List String} :
    (directory entries).HasFile (name :: rest) ↔ ∃ entry, (name, entry) ∈ entries ∧ entry.HasFile rest := by
  simp only [HasFile, at?, Option.bind_eq_some_iff, lookup?_eq_some_iff distinct]
  constructor
  · rintro ⟨content, modified, entry, member, found⟩
    exact ⟨entry, member, content, modified, found⟩
  · rintro ⟨entry, member, content, modified, found⟩
    exact ⟨content, modified, entry, member, found⟩

theorem IsProper.isFileName (proper : entry.IsProper) (isFile : entry.HasFile names) :
    ∀ name ∈ names, Path.IsFileName name := by
  induction proper generalizing names with
  | file content modified =>
    cases names with
    | nil => exact nofun
    | cons name rest => exact absurd isFile (hasFile_file_cons content modified name rest)
  | directory distinct named proper ih =>
    cases names with
    | nil => exact nofun
    | cons name rest =>
      obtain ⟨entry, member, below⟩ := (hasFile_directory_cons distinct).mp isFile
      exact List.forall_mem_cons.mpr ⟨named _ member, ih _ member below⟩

theorem mem_of_lookup? (found : lookup? name entries = some entry) : (name, entry) ∈ entries := by
  simp only [lookup?, Option.map_eq_some_iff] at found
  obtain ⟨⟨key, _⟩, isFound, rfl⟩ := found
  have isKey := List.find?_some isFound
  obtain rfl : key = name := by simpa using isKey
  exact List.mem_of_find?_eq_some isFound

theorem mem_insert {pair : String × Entry} (member : pair ∈ insert name entry entries) :
    pair = (name, entry) ∨ pair ∈ entries := by
  induction entries with
  | nil => exact .inl (List.mem_singleton.mp member)
  | cons first rest ih =>
    unfold insert at member
    split at member
    · exact (List.mem_cons.mp member).imp_right (List.mem_cons_of_mem _)
    · rcases List.mem_cons.mp member with rfl | inRest
      · exact .inr List.mem_cons_self
      · exact (ih inRest).imp_right (List.mem_cons_of_mem _)

theorem nodup_insert (distinct : (entries.map (·.1)).Nodup) : ((insert name entry entries).map (·.1)).Nodup := by
  induction entries with
  | nil => exact List.nodup_singleton name
  | cons first rest ih =>
    obtain ⟨fresh, restDistinct⟩ := List.nodup_cons.mp distinct
    unfold insert
    split
    · rename_i same
      exact same ▸ distinct
    · rename_i apart
      refine List.nodup_cons.mpr ⟨fun again => ?_, ih restDistinct⟩
      obtain ⟨pair, member, isKey⟩ := List.mem_map.mp again
      rcases mem_insert member with rfl | inRest
      · exact apart isKey.symm
      · exact fresh (List.mem_map.mpr ⟨pair, inRest, isKey⟩)

namespace IsProper

theorem insert (proper : (Entry.directory entries).IsProper) (isFileName : Path.IsFileName name)
    (isProper : entry.IsProper) : (Entry.directory (Entry.insert name entry entries)).IsProper := by
  cases proper with
  | directory distinct named proper =>
    refine .directory (nodup_insert distinct) (fun pair member => ?_) fun pair member => ?_
    · rcases mem_insert member with rfl | old
      · exact isFileName
      · exact named pair old
    · rcases mem_insert member with rfl | old
      · exact isProper
      · exact proper pair old

theorem alter (proper : entry.IsProper) (isFileName : Path.IsFileName name) {new : Entry} (isProper : new.IsProper)
    (location : List String) : (entry.alter (Entry.insert name new) location).IsProper := by
  induction location generalizing entry with
  | nil =>
    cases entry with
    | file => exact proper
    | directory entries => exact proper.insert isFileName isProper
  | cons head rest ih =>
    cases entry with
    | file => exact proper
    | directory entries =>
      cases found : lookup? head entries with
      | none => simpa only [Entry.alter, found] using proper
      | some sub =>
        simp only [Entry.alter, found]
        have member := mem_of_lookup? found
        cases proper with
        | directory distinct named subProper =>
          exact (IsProper.directory distinct named subProper).insert (named _ member) (ih (subProper _ member))

theorem at? (proper : entry.IsProper) {found : Entry} (there : entry.at? names = some found) : found.IsProper := by
  induction names generalizing entry with
  | nil =>
    cases there
    exact proper
  | cons name rest ih =>
    cases proper with
    | file => cases there
    | directory distinct named subProper =>
      obtain ⟨sub, isSub, below⟩ := Option.bind_eq_some_iff.mp there
      exact ih (subProper _ (mem_of_lookup? isSub)) below

theorem of_bare (isBare : entry.bare = entry) : entry.IsProper := by
  cases entry with
  | file content modified => exact .file content modified
  | directory entries =>
    obtain rfl : [] = entries := directory.inj isBare
    exact .directory List.nodup_nil nofun nofun

end IsProper

end Entry

namespace Path

/-- The path that leads on from a path along some names. -/
def below (base : Path) (names : List String) : Path := names.foldl (fun path name => path.join ⟨name⟩) base

variable {base : Path} {names others : List String}

@[simp] theorem below_nil (base : Path) : base.below [] = base := rfl

theorem below_cons (base : Path) (name : String) (rest : List String) :
    base.below (name :: rest) = (base.join ⟨name⟩).below rest := rfl

theorem components_below (base : Path) (areNames : ∀ name ∈ names, IsFileName name) :
    (base.below names).components = base.components ++ names.map .name := by
  induction names generalizing base with
  | nil => simp
  | cons name rest ih =>
    obtain ⟨isName, restNames⟩ := List.forall_mem_cons.mp areNames
    rw [below_cons, ih _ restNames, components_join_fileName base isName, List.append_assoc]
    rfl

theorem below_injective (areNames : ∀ name ∈ names, IsFileName name) (otherNames : ∀ name ∈ others, IsFileName name)
    (same : base.below names = base.below others) : names = others := by
  have sameComponents := congrArg components same
  rw [components_below base areNames, components_below base otherNames] at sameComponents
  exact List.map_injective_iff.mpr (fun _ _ => Component.name.inj) (List.append_cancel_left sameComponents)

end Path

namespace SourceFilter

def isHidden (name : String) : Bool := name.toList.head? == some '.'

/-- The walk enters all directories on the way, and does not leave out the file at its end. -/
def Reaches (filter : SourceFilter) : Path → List String → Prop
  | _, [] => True
  | path, name :: rest =>
    (rest ≠ [] → isHidden name = false ∧ name ∉ skippedDirectories) ∧ filter.isIgnored (path.join ⟨name⟩) = false ∧
      Reaches filter (path.join ⟨name⟩) rest

/-- What the walk finds at one entry of a directory. -/
def visit (filter : SourceFilter) (path : Path) (pair : String × Entry) : List Path :=
  if isPruned pair.1 pair.2 || filter.isIgnored (path.join ⟨pair.1⟩) then []
  else filter.walk (path.join ⟨pair.1⟩) pair.2

variable {filter : SourceFilter} {base path : Path} {entry : Entry} {entries : List (String × Entry)} {system : FileSystem}

theorem scan_of_entry (filter : SourceFilter) (isEntry : system.entry base = .ok entry) : filter.scan system base =
    .ok (sorted (fun a b => a.compare b != .gt) (if filter.isIgnored base then [] else filter.walk base entry)) := by
  rw [scan, isEntry]
  rfl

theorem walk_directory (filter : SourceFilter) (base : Path) (entries : List (String × Entry)) :
    filter.walk base (.directory entries) = entries.flatMap (filter.visit base) := by
  rw [walk]
  induction entries with
  | nil => rfl
  | cons pair rest ih =>
    rw [walkIn, ih]
    rfl

theorem mem_visit {pair : String × Entry} : path ∈ filter.visit base pair ↔
    isPruned pair.1 pair.2 = false ∧ filter.isIgnored (base.join ⟨pair.1⟩) = false ∧
      path ∈ filter.walk (base.join ⟨pair.1⟩) pair.2 := by
  unfold visit
  cases isPruned pair.1 pair.2 <;> cases filter.isIgnored (base.join ⟨pair.1⟩) <;> simp

/-- A directory is on the way to what is below it, and a file is at the end. -/
theorem isPruned_eq_false_iff {name : String} {rest : List String} (isFile : entry.HasFile rest) :
    isPruned name entry = false ↔ (rest ≠ [] → isHidden name = false ∧ name ∉ skippedDirectories) := by
  cases entry with
  | file content modified =>
    cases rest with
    | nil => simp [isPruned]
    | cons name rest => exact absurd isFile (Entry.hasFile_file_cons content modified name rest)
  | directory entries =>
    cases rest with
    | nil => simp at isFile
    | cons => simp [isPruned, isHidden]

theorem mem_walk (proper : entry.IsProper) : path ∈ filter.walk base entry ↔
    ∃ names, entry.HasFile names ∧ path = base.below names ∧ filter.Reaches base names ∧ filter.isSource path = true := by
  induction proper generalizing base with
  | file content modified =>
    constructor
    · intro found
      unfold walk at found
      split at found
      · rename_i isSource
        obtain rfl := List.mem_singleton.mp found
        exact ⟨[], by simp, rfl, trivial, isSource⟩
      · cases found
    · rintro ⟨names, isFile, rfl, -, isSource⟩
      cases names with
      | nil =>
        rw [Path.below_nil] at isSource ⊢
        rw [walk, if_pos isSource]
        exact List.mem_singleton_self base
      | cons name rest => exact absurd isFile (Entry.hasFile_file_cons content modified name rest)
  | directory distinct named proper ih =>
    rw [walk_directory, List.mem_flatMap]
    constructor
    · rintro ⟨⟨name, entry⟩, member, found⟩
      obtain ⟨notPruned, notIgnored, inEntry⟩ := mem_visit.mp found
      obtain ⟨rest, isFile, rfl, reaches, isSource⟩ := (ih _ member).mp inEntry
      refine ⟨name :: rest, (Entry.hasFile_directory_cons distinct).mpr ⟨entry, member, isFile⟩, rfl, ?_, isSource⟩
      exact ⟨(isPruned_eq_false_iff isFile).mp notPruned, notIgnored, reaches⟩
    · rintro ⟨names, isFile, rfl, reaches, isSource⟩
      cases names with
      | nil => simp at isFile
      | cons name rest =>
        obtain ⟨entry, member, inEntry⟩ := (Entry.hasFile_directory_cons distinct).mp isFile
        obtain ⟨enters, notIgnored, onward⟩ := reaches
        refine ⟨(name, entry), member, mem_visit.mpr ⟨(isPruned_eq_false_iff inEntry).mpr enters, notIgnored, ?_⟩⟩
        exact (ih _ member).mpr ⟨rest, inEntry, rfl, onward, isSource⟩

theorem components_of_mem_visit {pair : String × Entry} (isFileName : Path.IsFileName pair.1) (proper : pair.2.IsProper)
    (found : path ∈ filter.visit base pair) : ∃ rest, path.components = base.components ++ .name pair.1 :: rest := by
  obtain ⟨names, isFile, rfl, -, -⟩ := (mem_walk proper).mp (mem_visit.mp found).2.2
  refine ⟨names.map .name, ?_⟩
  rw [Path.components_below _ (proper.isFileName isFile), Path.components_join_fileName base isFileName,
    List.append_assoc, List.singleton_append]

/-- No two paths that are found have the same components. -/
theorem apart_walk (proper : entry.IsProper) :
    (filter.walk base entry).Pairwise fun a b => a.components ≠ b.components := by
  induction proper generalizing base with
  | file content modified =>
    unfold walk
    split <;> simp
  | @directory entries distinct named proper ih =>
    rw [walk_directory, List.pairwise_flatMap]
    refine ⟨fun pair member => ?_, ?_⟩
    · unfold visit
      split
      · exact .nil
      · exact ih pair member
    · have namesApart : entries.Pairwise fun pair other => pair.1 ≠ other.1 := List.pairwise_map.mp distinct
      refine namesApart.imp_of_mem fun {pair other} member otherMember apart a inPair b inOther same => ?_
      obtain ⟨_, ofPair⟩ := components_of_mem_visit (named pair member) (proper pair member) inPair
      obtain ⟨_, ofOther⟩ := components_of_mem_visit (named other otherMember) (proper other otherMember) inOther
      rw [ofPair, ofOther, List.append_cancel_left_eq, List.cons.injEq, Component.name.injEq] at same
      exact apart same.1

end SourceFilter

end SiteQuery
