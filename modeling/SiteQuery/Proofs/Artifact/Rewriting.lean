import SiteQuery.Proofs.Artifact.Writing
import SiteQuery.Proofs.Files.Changes

/-!
Writing artifacts, whatever the disk has become since the pass.

The directories of sources may be gone; the writer makes them again. Once it has succeeded every artifact reads as its
query, every other file is as before, and there is nothing left to write: `writeQueries_exact`,
`writeQueries_of_current`. As many were written as were not there, if those that were could be found: `count_eq`.
-/

namespace SiteQuery.Artifact

open SiteQuery.Path FileSystem Compilation Relation

/-- The path ends in a name. -/
def EndsInName (source : Path) : Prop := ∃ before name, source.parts = before ++ [name.toList] ∧ IsFileName name

variable {system middle after : FileSystem} {source : Path} {location : List String} {name extension text : String}

theorem exists_artifact_parts (ends : EndsInName source) (isFileName : IsFileName (fileName name extension)) :
    ∃ start, (path source name extension).parts =
      start ++ [directoryName.toList] ++ [(fileName name extension).toList] := by
  obtain ⟨before, last, parts, isLast⟩ := ends
  obtain ⟨start, padding, rfl, -, artifacts⟩ := exists_start parts isLast
  refine ⟨start, ?_⟩
  rw [artifacts name extension isFileName, List.append_assoc]
  rfl

/-- What the path of an artifact spells is a place for an artifact of this name. -/
theorem exists_place (ends : EndsInName source) (isFileName : IsFileName (fileName name extension)) :
    ∃ directory, spelled (path source name extension) = place directory name extension := by
  obtain ⟨start, parts⟩ := exists_artifact_parts ends isFileName
  refine ⟨start.foldl descend [], ?_⟩
  rw [spelled_eq, pieces_eq_parts, parts, place_eq]
  simp only [List.foldl_append, List.foldl_cons, List.foldl_nil,
    descend_name isFileName_directoryName.isComponent, descend_name isFileName.isComponent]

/-- Wherever the path of an artifact leads, it is a place for an artifact of this name. -/
theorem exists_place_of_locate (ends : EndsInName source) (isFileName : IsFileName (fileName name extension))
    (located : system.locate (path source name extension) = .ok location) :
    ∃ directory, location = place directory name extension := by
  rw [location_of_locate located]
  exact exists_place ends isFileName

/-- An artifact is put into the directory that its path leads to, once the directories on the way are there. -/
theorem exists_puts_of_write (ends : EndsInName source) (isFileName : IsFileName (fileName name extension))
    (wrote : write system (path source name extension) text = (after, .ok ())) :
    ∃ middle directory, ReflTransGen Makes system middle ∧
      middle.Puts after (directory ++ [directoryName]) (fileName name extension) (.file (.text text) middle.clock) ∧
      after.locate (path source name extension) = .ok (place directory name extension) := by
  obtain ⟨start, parts⟩ := exists_artifact_parts ends isFileName
  rw [write] at wrote
  cases made : ((path source name extension).parent?.map system.makeDirectories).getD (.ok system) with
  | error error => simp [made] at wrote
  | ok middle =>
    have makes : ReflTransGen Makes system middle := by
      cases isParent : (path source name extension).parent? with
      | none =>
        rw [isParent] at made
        cases made
        exact .refl
      | some parent =>
        rw [isParent] at made
        exact makeDirectories_changes made
    cases put : middle.writeText (path source name extension) text with
    | error error => simp [made, put] at wrote
    | ok last =>
      simp only [made, put, Prod.mk.injEq, and_true] at wrote
      subst wrote
      obtain ⟨inside, followed, puts⟩ := exists_puts_of_writeText parts isFileName put
      obtain ⟨directory, _, _, rfl, _⟩ := follow_concat.mp followed
      rw [descend_name isFileName_directoryName.isComponent] at followed puts
      have split := place_eq directory name extension
      refine ⟨middle, directory, makes, puts, ?_⟩
      rw [locate_of_parts parts isFileName, follow_concat]
      refine ⟨_, puts.grows.follow followed, puts.grows.directory _ puts.inside, ?_, ?_⟩
      · rw [descend_name isFileName.isComponent, split]
      · rw [puts.look?, split, Function.update_self]
        rfl

variable {queries : List CompiledQuery} {query : CompiledQuery} {written : FileSystem} {count : Nat}

/-- What the turn of one query leads to: its artifact reads as the query, and everything else is kept. -/
structure Turn (extension : String) (query : CompiledQuery) (system next : FileSystem) : Prop where
  changes : ReflTransGen Change system next
  readText : next.readText (path query.path query.name extension) = .ok query.text
  kept : ∀ location, next.locate (path query.path query.name extension) ≠ .ok location → system.Kept next location

theorem turn_of_write (ends : EndsInName query.path) (isFileName : IsFileName (fileName query.name extension))
    (wrote : write system (path query.path query.name extension) query.text = (after, .ok ())) :
    Turn extension query system after := by
  obtain ⟨middle, directory, makes, puts, located⟩ := exists_puts_of_write ends isFileName wrote
  have split := place_eq directory query.name extension
  constructor
  · have before : ReflTransGen Change system middle := makes.lift id fun _ _ => Makes.change
    exact before.tail ⟨_, _, _, isFileName, puts⟩
  · refine readText_eq_ok.mpr ⟨_, middle.clock, located, ?_⟩
    rw [puts.look?, split, Function.update_self]
  · intro location elsewhere
    have notPlace : location ≠ directory ++ [directoryName] ++ [fileName query.name extension] := by
      rintro rfl
      exact elsewhere (split ▸ located)
    exact (kept_of_makes makes location).trans (puts.kept notPlace)

theorem exists_turn (wrote : writeQueries extension system (query :: queries) = (written, .ok count))
    (ends : EndsInName query.path) (isFileName : IsFileName (fileName query.name extension)) :
    ∃ next others, writeQueries extension next queries = (written, .ok others) ∧ Turn extension query system next ∧
      count = others + (if isCurrent system (path query.path query.name extension) query.text then 0 else 1) := by
  rcases writeQueries_cons_eq_ok wrote with ⟨current, rest⟩ | ⟨notCurrent, next, others, first, rest, rfl⟩
  · exact ⟨system, count, rest, ⟨.refl, isCurrent_iff.mp current, fun _ _ => .inl rfl⟩, by rw [if_pos current]; rfl⟩
  · exact ⟨next, others, rest, turn_of_write ends isFileName first, by rw [notCurrent]; rfl⟩

/-- Queries of different names have their artifacts at different places. -/
theorem locate_ne_place (ends : EndsInName query.path) (isFileName : IsFileName (fileName query.name extension))
    (apart : query.name ≠ name) (directory : List String) :
    system.locate (path query.path query.name extension) ≠ .ok (place directory name extension) := by
  intro located
  obtain ⟨other, same⟩ := exists_place_of_locate ends isFileName located
  exact apart (place_injective same.symm)

/-- Queries of different names, such that there is a file name for each artifact. -/
structure AreWritable (extension : String) (queries : List CompiledQuery) : Prop where
  ends : ∀ query ∈ queries, EndsInName query.path
  areFileNames : ∀ query ∈ queries, IsFileName (fileName query.name extension)
  distinct : (queries.map (·.name)).Nodup

theorem AreWritable.of_cons (writable : AreWritable extension (query :: queries)) :
    EndsInName query.path ∧ IsFileName (fileName query.name extension) ∧ (∀ other ∈ queries, query.name ≠ other.name) ∧
      AreWritable extension queries := by
  obtain ⟨ends, areFileNames, distinct⟩ := writable
  obtain ⟨endsFirst, restEnds⟩ := List.forall_mem_cons.mp ends
  obtain ⟨isFileName, restFileNames⟩ := List.forall_mem_cons.mp areFileNames
  rw [List.map_cons, List.nodup_cons] at distinct
  exact ⟨endsFirst, isFileName, fun other member same => distinct.1 (same ▸ List.mem_map_of_mem member),
    restEnds, restFileNames, distinct.2⟩

/-- Once artifacts are written each reads as the text of its query, and everything else is kept. -/
theorem writeQueries_exact (wrote : writeQueries extension system queries = (written, .ok count))
    (writable : AreWritable extension queries) :
    ReflTransGen Change system written ∧
      (∀ query ∈ queries, written.readText (path query.path query.name extension) = .ok query.text) ∧
      ∀ location, (∀ query ∈ queries, written.locate (path query.path query.name extension) ≠ .ok location) →
        system.Kept written location := by
  induction queries generalizing system count with
  | nil =>
    cases wrote
    exact ⟨.refl, nofun, fun _ _ => .inl rfl⟩
  | cons query rest ih =>
    obtain ⟨ends, isFileName, distinct, writableRest⟩ := writable.of_cons
    obtain ⟨next, others, wroteRest, turn, -⟩ := exists_turn wrote ends isFileName
    obtain ⟨restChanges, restRead, restKept⟩ := ih wroteRest writableRest
    have restGrows := grows_of_changes restChanges
    refine ⟨turn.changes.trans restChanges, List.forall_mem_cons.mpr ⟨?_, restRead⟩, fun location apart => ?_⟩
    · -- The others are written elsewhere, since their names are different.
      obtain ⟨location, modified, located, isText⟩ := readText_eq_ok.mp turn.readText
      refine readText_eq_ok.mpr ⟨location, modified, restGrows.locate located, ?_⟩
      obtain ⟨directory, rfl⟩ := exists_place_of_locate ends isFileName located
      rw [(restKept _ fun other member => ?_).look?_eq (Option.isSome_of_mem isText), isText]
      exact locate_ne_place (writableRest.ends other member) (writableRest.areFileNames other member)
        (distinct other member).symm directory
    · obtain ⟨apartFirst, apartRest⟩ := List.forall_mem_cons.mp apart
      exact (turn.kept location fun located => apartFirst (restGrows.locate located)).trans (restKept location apartRest)

/-- Where every artifact reads as its query nothing is written. -/
theorem writeQueries_of_current
    (current : ∀ query ∈ queries, system.readText (path query.path query.name extension) = .ok query.text) :
    writeQueries extension system queries = (system, .ok 0) := by
  induction queries with
  | nil => rfl
  | cons query rest ih =>
    obtain ⟨isFirst, areRest⟩ := List.forall_mem_cons.mp current
    rw [writeQueries_cons, if_pos (isCurrent_iff.mpr isFirst), ih areRest]

/-- The artifact of a query, if it is there, is found by its path. -/
def IsInReach (system : FileSystem) (extension : String) (query : CompiledQuery) : Prop :=
  ∀ modified, system.look? (spelled (path query.path query.name extension)) = some (.file (.text query.text) modified) →
    system.readText (path query.path query.name extension) = .ok query.text

theorem isInReach_of_liesIn (liesIn : LiesIn system query.path location)
    (isFileName : IsFileName (fileName query.name extension)) : IsInReach system extension query := by
  obtain ⟨before, followed, parts⟩ := liesIn.exists_before
  have isSpelled : spelled (path query.path query.name extension) = place location query.name extension := by
    rw [spelled_eq, pieces_eq_parts, parts query.name extension isFileName, List.foldl_append, ← foldlM_step_eq followed,
      place_eq]
    simp only [List.foldl_cons, List.foldl_nil, descend_name isFileName_directoryName.isComponent,
      descend_name isFileName.isComponent]
  intro modified there
  rw [isSpelled] at there
  exact (liesIn.readText_iff isFileName).mpr ⟨modified, there⟩

theorem IsInReach.isCurrent_iff (inReach : IsInReach system extension query) :
    isCurrent system (path query.path query.name extension) query.text = true ↔
      ∃ modified, system.look? (spelled (path query.path query.name extension)) =
        some (.file (.text query.text) modified) := by
  rw [Artifact.isCurrent_iff]
  constructor
  · intro read
    obtain ⟨location, modified, located, isText⟩ := readText_eq_ok.mp read
    exact ⟨modified, location_of_locate located ▸ isText⟩
  · rintro ⟨modified, isText⟩
    exact inReach modified isText

variable {next : FileSystem} {other : CompiledQuery}

/-- The turn of another query leaves an artifact as it is. -/
theorem Turn.kept_spelled (turn : Turn extension query system next) (apart : query.name ≠ other.name)
    (ends : EndsInName query.path) (isFileName : IsFileName (fileName query.name extension))
    (endsOther : EndsInName other.path) (isFileNameOther : IsFileName (fileName other.name extension)) :
    system.Kept next (spelled (path other.path other.name extension)) := by
  obtain ⟨directory, isPlace⟩ := exists_place endsOther isFileNameOther
  rw [isPlace]
  exact turn.kept _ (locate_ne_place ends isFileName apart directory)

theorem Turn.isInReach (turn : Turn extension query system next)
    (kept : system.Kept next (spelled (path other.path other.name extension)))
    (inReach : IsInReach system extension other) : IsInReach next extension other := by
  intro modified there
  have before := kept.file_iff.mp there
  exact (grows_of_changes turn.changes).readText (inReach modified before) (there.trans before.symm)

theorem Turn.isCurrent_eq (turn : Turn extension query system next)
    (kept : system.Kept next (spelled (path other.path other.name extension)))
    (inReach : IsInReach system extension other) :
    isCurrent next (path other.path other.name extension) other.text =
      isCurrent system (path other.path other.name extension) other.text := by
  rw [Bool.eq_iff_iff, (turn.isInReach kept inReach).isCurrent_iff, inReach.isCurrent_iff]
  exact exists_congr fun modified => kept.file_iff

/-- As many are written as were not there before, as long as those that were there could be found. -/
theorem count_eq (wrote : writeQueries extension system queries = (written, .ok count))
    (writable : AreWritable extension queries) (inReach : ∀ query ∈ queries, IsInReach system extension query) :
    count = queries.countP fun query => !isCurrent system (path query.path query.name extension) query.text := by
  induction queries generalizing system count with
  | nil =>
    cases wrote
    rfl
  | cons query rest ih =>
    obtain ⟨ends, isFileName, distinct, writableRest⟩ := writable.of_cons
    obtain ⟨-, restInReach⟩ := List.forall_mem_cons.mp inReach
    obtain ⟨next, others, wroteRest, turn, rfl⟩ := exists_turn wrote ends isFileName
    have kept (other : CompiledQuery) (member : other ∈ rest) :=
      turn.kept_spelled (distinct other member) ends isFileName (writableRest.ends other member)
        (writableRest.areFileNames other member)
    rw [ih wroteRest writableRest fun other member => turn.isInReach (kept other member) (restInReach other member),
      List.countP_cons]
    have sameCount : rest.countP (fun other => !isCurrent next (path other.path other.name extension) other.text) =
        rest.countP fun other => !isCurrent system (path other.path other.name extension) other.text := by
      refine List.countP_congr fun other member => ?_
      rw [turn.isCurrent_eq (kept other member) (restInReach other member)]
    rw [sameCount]
    cases isCurrent system (path query.path query.name extension) query.text <;> rfl

end SiteQuery.Artifact
