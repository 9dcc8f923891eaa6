import Mathlib.Data.List.Nodup
import SiteQuery.Artifact.Writer
import SiteQuery.Proofs.Files.Writing

/-!
What is on the disk once artifacts were written.

An artifact has its place below the directory that its source lies in (`LiesIn`), and no two queries of different
names share one. After a run of the writer each artifact reads as the text of its query, and everything that is not
an artifact, nor a directory for them, is as before: `writeQueries_spec`.
-/

namespace SiteQuery.Artifact

open SiteQuery.Path FileSystem Compilation

/-- The source is spelled as an entry of the directory at the location. -/
structure LiesIn (system : FileSystem) (source : Path) (location : List String) : Prop where
  exists_parts : ∃ before name, source.parts = before ++ [name.toList] ∧ IsFileName name ∧
    system.follow before = .ok location
  isDirectory : system.HasDirectory location

/-- The place of an artifact, for sources that lie at the location. -/
def place (location : List String) (name extension : String) : List String :=
  location ++ [directoryName, fileName name extension]

variable {system after : FileSystem} {source : Path} {location : List String} {name other extension text : String}

theorem isFileName_directoryName : IsFileName directoryName := ⟨by decide, by decide⟩

theorem toList_fileName (name extension : String) :
    (fileName name extension).toList = name.toList ++ (".generated.".toList ++ extension.toList) := by
  simp [fileName, toString]

theorem isFileName_fileName (plainName : '/' ∉ name.toList) (plainExtension : '/' ∉ extension.toList) :
    IsFileName (fileName name extension) := by
  refine ⟨?_, ?_⟩
  · rw [toList_fileName]
    simp [plainName, plainExtension]
  · have long : 2 < (fileName name extension).toList.length := by
      have ofMiddle : ".generated.".toList.length = 11 := by decide
      rw [toList_fileName, List.length_append, List.length_append]
      omega
    rw [componentOf_of_length long, String.ofList_toList]

theorem fileName_injective (same : fileName name extension = fileName other extension) : name = other := by
  have sameLetters := congrArg String.toList same
  rw [toList_fileName, toList_fileName] at sameLetters
  exact String.toList_inj.mp (List.append_cancel_right sameLetters)

theorem fileName_ne_directoryName (name extension : String) : fileName name extension ≠ directoryName := by
  intro same
  have dotted : '.' ∈ (fileName name extension).toList := by simp [toList_fileName]
  rw [same] at dotted
  revert dotted
  decide

theorem place_injective {a b : List String} (same : place a name extension = place b other extension) :
    name = other := by
  have sameEnd := congrArg List.getLast? same
  simp only [place, List.getLast?_append, List.getLast?_cons_cons, List.getLast?_singleton, Option.some_or] at sameEnd
  exact fileName_injective (Option.some.inj sameEnd)

theorem place_ne (a b : List String) (name extension : String) : place a name extension ≠ b ++ [directoryName] := by
  intro same
  have sameEnd := congrArg List.getLast? same
  simp only [place, List.getLast?_append, List.getLast?_cons_cons, List.getLast?_singleton, Option.some_or] at sameEnd
  exact fileName_ne_directoryName name extension (Option.some.inj sameEnd)

theorem place_eq (location : List String) (name extension : String) :
    place location name extension = location ++ [directoryName] ++ [fileName name extension] := by
  simp [place]

/-- Artifacts are spelled with the pieces that lead to their source, but for padding. -/
theorem exists_start {before : List (List Char)} (parts : source.parts = before ++ [name.toList])
    (isFileName : IsFileName name) :
    ∃ start padding, before = start ++ padding ∧ (∀ piece ∈ padding, componentOf piece = none) ∧
      ∀ name extension, IsFileName (fileName name extension) →
        (path source name extension).parts = start ++ [directoryName.toList, (fileName name extension).toList] := by
  obtain ⟨parent, start, padding, isParent, isBefore, arePadding, joined⟩ := exists_parent parts isFileName
  refine ⟨start, padding, isBefore, arePadding, fun name extension isArtifact => ?_⟩
  have directory := joined directoryName isFileName_directoryName
  have ends : (parent.join ⟨directoryName⟩).parts.getLast? ≠ some [] := by
    rw [directory, List.getLast?_concat]
    decide
  rw [path, isParent, Option.getD_some, parts_join isArtifact ends, directory, List.append_assoc]
  rfl

namespace LiesIn

theorem unique {a b : List String} (liesIn : LiesIn system source a) (also : LiesIn system source b) : a = b := by
  obtain ⟨before, name, parts, _, followed⟩ := liesIn.exists_parts
  obtain ⟨before', name', parts', _, followed'⟩ := also.exists_parts
  obtain rfl := List.append_inj_left' (parts.symm.trans parts') rfl
  exact Except.ok.inj (followed.symm.trans followed')

theorem grow (liesIn : LiesIn system source location) (grows : system.Grows after) : LiesIn after source location := by
  obtain ⟨before, name, parts, isFileName, followed⟩ := liesIn.exists_parts
  exact ⟨⟨before, name, parts, isFileName, grows.follow followed⟩, grows.directory location liesIn.isDirectory⟩

/-- An artifact is spelled like its source, but in a directory of its own. -/
theorem exists_before (liesIn : LiesIn system source location) :
    ∃ before, system.follow before = .ok location ∧ ∀ name extension, IsFileName (fileName name extension) →
      (path source name extension).parts = before ++ [directoryName.toList, (fileName name extension).toList] := by
  obtain ⟨before, name, parts, isFileName, followed⟩ := liesIn.exists_parts
  obtain ⟨start, padding, rfl, arePadding, artifacts⟩ := exists_start parts isFileName
  exact ⟨start, follow_of_append_padding arePadding followed, artifacts⟩

/-- What an artifact reads as depends on what is at its place only. -/
theorem readText_iff (liesIn : LiesIn system source location) (isFileName : IsFileName (fileName name extension)) :
    system.readText (path source name extension) = .ok text ↔
      ∃ modified, system.look? (place location name extension) = some (.file (.text text) modified) := by
  obtain ⟨before, followed, parts⟩ := liesIn.exists_before
  have artifact : (path source name extension).parts =
      before ++ [directoryName.toList] ++ [(fileName name extension).toList] := by
    rw [parts name extension isFileName, List.append_assoc]
    rfl
  rw [readText_eq_ok, locate_of_parts artifact isFileName]
  constructor
  · rintro ⟨found, modified, isThere, isText⟩
    obtain ⟨directory, isDirectory, -, rfl, -⟩ := follow_concat.mp isThere
    obtain rfl := follow_name followed isFileName_directoryName isDirectory
    rw [descend_name isFileName.isComponent, List.append_assoc] at isText
    exact ⟨modified, isText⟩
  · rintro ⟨modified, isText⟩
    have split := place_eq location name extension
    have hasDirectory : system.HasDirectory (location ++ [directoryName]) :=
      Entry.bareAt?_of_append (split ▸ Option.isSome_of_mem isText) (List.cons_ne_nil _ [])
    refine ⟨_, modified, ?_, isText⟩
    rw [follow_concat]
    refine ⟨location ++ [directoryName], ?_, hasDirectory, ?_, Option.isSome_of_mem isText⟩
    · exact follow_concat.mpr ⟨location, followed, liesIn.isDirectory,
        (descend_name isFileName_directoryName.isComponent).symm, Option.isSome_of_mem hasDirectory⟩
    · rw [descend_name isFileName.isComponent, split]

end LiesIn

/-- A file that can be read lies in a directory, and is an entry there. -/
theorem exists_liesIn (read : system.readText source = .ok text) :
    ∃ location name, LiesIn system source location ∧ spelled source = location ++ [name] := by
  obtain ⟨found, modified, located, isText⟩ := readText_eq_ok.mp read
  have isSpelled := location_of_locate located
  obtain ⟨before, last, parts⟩ : ∃ before last, source.parts = before ++ [last] := by
    rcases List.eq_nil_or_concat source.parts with isNil | ⟨before, last, isConcat⟩
    · exact absurd isNil (List.splitOn_ne_nil '/' _)
    · exact ⟨before, last, by rw [isConcat, List.concat_eq_append]⟩
  have toFile : system.follow (before ++ [last]) = .ok found := by
    unfold locate at located
    rw [pieces_eq_parts, parts] at located
    split at located
    · cases located
    · exact located
  obtain ⟨location, followed, isDirectory, rfl, -⟩ := follow_concat.mp toFile
  have notDirectory : ¬ system.HasDirectory (descend location last) := by
    intro hasDirectory
    cases isText.symm.trans hasDirectory
  obtain ⟨name, isName⟩ : ∃ name, componentOf last = some (.name name) := by
    cases isComponent : componentOf last with
    | none => exact absurd (descend_padding isComponent ▸ isDirectory) notDirectory
    | some component =>
      rcases exists_of_componentOf isComponent with rfl | ⟨name, rfl⟩
      · refine absurd ?_ notDirectory
        rw [descend, isComponent]
        exact isDirectory.dropLast
      · exact ⟨name, rfl⟩
  rw [descend_name isName] at isSpelled
  obtain rfl := toList_of_componentOf isName
  have isWhole : '/' ∉ name.toList := not_mem_of_mem_parts (parts ▸ List.mem_append_right _ (List.mem_singleton_self _))
  exact ⟨location, name, ⟨⟨before, name, parts, ⟨isWhole, isName⟩, followed⟩, isDirectory⟩, isSpelled.symm⟩

/-- A written artifact is at its place, and the directory for it is there; everything else is as before. -/
theorem write_eq_ok (liesIn : LiesIn system source location) (isFileName : IsFileName (fileName name extension))
    (wrote : write system (path source name extension) text = (after, .ok ())) :
    system.Grows after ∧
      after.look? = Function.update
        (Function.update system.look? (location ++ [directoryName]) (some (.directory [])))
        (place location name extension) (some (.file (.text text) system.clock)) := by
  obtain ⟨before, followed, parts⟩ := liesIn.exists_before
  have artifact := parts name extension isFileName
  obtain ⟨directory, isParent, directoryParts⟩ := parent?_of_names artifact isFileName_directoryName isFileName
  have split := place_eq location name extension
  rw [write, isParent, Option.map_some, Option.getD_some] at wrote
  cases made : system.makeDirectories directory with
  | error error => simp [made] at wrote
  | ok next =>
    obtain ⟨kind, madeLook, sameClock⟩ :=
      makeDirectories_eq_ok directoryParts isFileName_directoryName followed liesIn.isDirectory made
    have firstGrows : system.Grows next := grows_update madeLook fun _ => rfl
    have hasDirectory : next.HasDirectory (location ++ [directoryName]) := by
      rw [HasDirectory, madeLook, Function.update_self]
    have toDirectory : next.follow (before ++ [directoryName.toList]) = .ok (location ++ [directoryName]) :=
      follow_concat.mpr ⟨location, firstGrows.follow followed, firstGrows.directory location liesIn.isDirectory,
        (descend_name isFileName_directoryName.isComponent).symm, Option.isSome_of_mem hasDirectory⟩
    have artifactParts : (path source name extension).parts =
        before ++ [directoryName.toList] ++ [(fileName name extension).toList] := by
      rw [artifact, List.append_assoc]
      rfl
    cases put : next.writeText (path source name extension) text with
    | error error => simp [made, put] at wrote
    | ok last =>
      simp only [made, put, Prod.mk.injEq, and_true] at wrote
      subst wrote
      have puts := writeText_eq_ok artifactParts isFileName toDirectory hasDirectory put
      exact ⟨firstGrows.trans puts.grows, by rw [puts.look?, madeLook, sameClock, split]⟩

/-- Where the artifacts of these queries, and the directories for them, are not. -/
def Apart (system : FileSystem) (extension : String) (queries : List CompiledQuery) (location : List String) : Prop :=
  ∀ query ∈ queries, ∀ directory, LiesIn system query.path directory →
    location ≠ directory ++ [directoryName] ∧ location ≠ place directory query.name extension

theorem Apart.grow {queries : List CompiledQuery} (apart : Apart system extension queries location)
    (grows : system.Grows after) (liesIn : ∀ query ∈ queries, ∃ directory, LiesIn system query.path directory) :
    Apart after extension queries location := by
  intro query member directory isIn
  obtain ⟨old, wasIn⟩ := liesIn query member
  obtain rfl := (wasIn.grow grows).unique isIn
  exact apart query member old wasIn

/-- Names make the places of artifacts distinct, wherever their sources lie. -/
theorem apart_place {queries : List CompiledQuery} (distinct : name ∉ queries.map (·.name)) :
    Apart system extension queries (place location name extension) := by
  intro query member directory _
  refine ⟨place_ne _ _ _ _, fun same => distinct ?_⟩
  exact List.mem_map.mpr ⟨query, member, (place_injective same).symm⟩

variable {queries : List CompiledQuery} {query : CompiledQuery} {written : FileSystem} {count : Nat}

theorem writeQueries_cons : writeQueries extension system (query :: queries) =
    if isCurrent system (path query.path query.name extension) query.text then writeQueries extension system queries
    else
      match write system (path query.path query.name extension) query.text with
      | (system, .error error) => (system, .error error)
      | (system, .ok ()) =>
        let (system, others) := writeQueries extension system queries
        (system, others.map (· + 1)) := by
  -- In brackets, so that no equation for `dsimp` is made of it: that would evaluate the path.
  exact (rfl)

theorem isCurrent_iff {file : Path} : isCurrent system file text = true ↔ system.readText file = .ok text := by
  unfold isCurrent
  cases system.readText file <;> simp

/-- The first query has its artifact already, or it is written and counts. -/
theorem writeQueries_cons_eq_ok (wrote : writeQueries extension system (query :: queries) = (written, .ok count)) :
    (isCurrent system (path query.path query.name extension) query.text = true ∧
        writeQueries extension system queries = (written, .ok count)) ∨
      isCurrent system (path query.path query.name extension) query.text = false ∧
        ∃ next others, write system (path query.path query.name extension) query.text = (next, .ok ()) ∧
          writeQueries extension next queries = (written, .ok others) ∧ count = others + 1 := by
  rw [writeQueries_cons] at wrote
  by_cases current : isCurrent system (path query.path query.name extension) query.text = true
  · rw [if_pos current] at wrote
    exact .inl ⟨current, wrote⟩
  · rw [if_neg current] at wrote
    refine .inr ⟨Bool.not_eq_true _ ▸ current, ?_⟩
    cases first : write system (path query.path query.name extension) query.text with
    | mk next outcome =>
      cases rest : writeQueries extension next queries with
      | mk last others =>
        cases outcome with
        | error error => simp [first] at wrote
        | ok _ =>
          cases others with
          | error error => simp [first, rest, Except.map] at wrote
          | ok others =>
            simp only [first, rest, Except.map, Prod.mk.injEq, Except.ok.injEq] at wrote
            obtain ⟨rfl, rfl⟩ := wrote
            exact ⟨next, others, rfl, rest, rfl⟩

/-- After its turn the first query has its artifact, whether that was written or was there before. -/
theorem exists_next (wrote : writeQueries extension system (query :: queries) = (written, .ok count))
    (isFileName : IsFileName (fileName query.name extension)) (liesIn : LiesIn system query.path location) :
    ∃ next others, writeQueries extension next queries = (written, .ok others) ∧ system.Grows next ∧
      next.readText (path query.path query.name extension) = .ok query.text ∧
      ∀ other, other ≠ location ++ [directoryName] → other ≠ place location query.name extension →
        next.look? other = system.look? other := by
  rcases writeQueries_cons_eq_ok wrote with ⟨current, rest⟩ | ⟨-, next, others, first, rest, -⟩
  · exact ⟨system, count, rest, Grows.refl system, isCurrent_iff.mp current, fun _ _ _ => rfl⟩
  · obtain ⟨grows, changed⟩ := write_eq_ok liesIn isFileName first
    refine ⟨next, others, rest, grows, ?_, fun other notDirectory notPlace => ?_⟩
    · refine ((liesIn.grow grows).readText_iff isFileName).mpr ⟨system.clock, ?_⟩
      rw [changed, Function.update_self]
    · rw [changed, Function.update_of_ne notPlace, Function.update_of_ne notDirectory]

/-- Once the artifacts of queries of different names are written, each reads as the text of its query, and whatever
is apart from them is as before. -/
theorem writeQueries_spec (wrote : writeQueries extension system queries = (written, .ok count))
    (areFileNames : ∀ query ∈ queries, IsFileName (fileName query.name extension))
    (distinct : (queries.map (·.name)).Nodup)
    (liesIn : ∀ query ∈ queries, ∃ directory, LiesIn system query.path directory) :
    system.Grows written ∧
      (∀ query ∈ queries, written.readText (path query.path query.name extension) = .ok query.text) ∧
      ∀ location, Apart system extension queries location → written.look? location = system.look? location := by
  induction queries generalizing system count with
  | nil =>
    cases wrote
    exact ⟨Grows.refl _, nofun, fun _ _ => rfl⟩
  | cons query rest ih =>
    rw [List.map_cons, List.nodup_cons] at distinct
    obtain ⟨fresh, restDistinct⟩ := distinct
    have isFileName := areFileNames query List.mem_cons_self
    obtain ⟨directory, isIn⟩ := liesIn query List.mem_cons_self
    have restLiesIn : ∀ other ∈ rest, ∃ directory, LiesIn system other.path directory :=
      fun other member => liesIn other (List.mem_cons_of_mem _ member)
    obtain ⟨next, others, wroteRest, grows, read, same⟩ := exists_next wrote isFileName isIn
    obtain ⟨restGrows, restRead, restSame⟩ := ih wroteRest
      (fun other member => areFileNames other (List.mem_cons_of_mem _ member)) restDistinct
      (fun other member => (restLiesIn other member).imp fun _ wasIn => wasIn.grow grows)
    refine ⟨grows.trans restGrows, ?_, ?_⟩
    · intro other member
      rcases List.mem_cons.mp member with rfl | inRest
      · obtain ⟨modified, isText⟩ := ((isIn.grow grows).readText_iff isFileName).mp read
        refine ((isIn.grow (grows.trans restGrows)).readText_iff isFileName).mpr ⟨modified, ?_⟩
        rw [restSame _ (apart_place fresh), isText]
      · exact restRead other inRest
    · intro location apart
      obtain ⟨notDirectory, notPlace⟩ := apart query List.mem_cons_self directory isIn
      have restApart : Apart system extension rest location :=
        fun other member => apart other (List.mem_cons_of_mem _ member)
      rw [restSame location (restApart.grow grows restLiesIn), same location notDirectory notPlace]

end SiteQuery.Artifact
