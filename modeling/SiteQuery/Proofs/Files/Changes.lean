import Mathlib.Logic.Relation
import SiteQuery.Proofs.Files.Writing

/-!
What making directories and writing a file change, wherever a path leads.

A change puts one entry into a directory that is there (`Change`). Making directories is a run of such changes, each
at a location where nothing was: `makeDirectories_changes`. So whatever is on the disk is kept (`Kept`).
-/

namespace SiteQuery

namespace FileSystem

open SiteQuery.Path Relation

variable {system middle after : FileSystem} {path : Path} {paths : List Path} {location : List String} {name : String}
  {entry : Entry}

/-- An entry is put somewhere, under a name that files can have. -/
def Change (system after : FileSystem) : Prop :=
  ∃ location name entry, IsFileName name ∧ system.Puts after location name entry

/-- A directory is made where nothing was. -/
def Makes (system after : FileSystem) : Prop :=
  ∃ location name, IsFileName name ∧ system.Puts after location name (.directory []) ∧
    system.look? (location ++ [name]) = none

theorem target_eq_ok (found : system.target path = .ok (location, some name)) :
    ∃ before, ((pieces [] path.text.toList).reverse.dropWhile List.isEmpty).reverse = before ++ [name.toList] ∧
      IsFileName name ∧ system.follow before = .ok location ∧ system.HasDirectory location := by
  unfold target at found
  rcases List.eq_nil_or_concat ((pieces [] path.text.toList).reverse.dropWhile List.isEmpty).reverse with
    isNil | ⟨before, piece, isConcat⟩
  · simp [isNil, follow, bind, Except.bind, pure, Except.pure] at found
  · rw [List.concat_eq_append] at isConcat
    rw [isConcat] at found ⊢
    simp only [List.dropLast_concat, List.getLast?_concat, Option.map_some, bind, Except.bind] at found
    cases followed : system.follow before with
    | error error => simp [followed] at found
    | ok reached =>
      simp only [followed] at found
      split at found
      · rename_i named there isName isThere
        cases found
        have isComponent := Option.some.inj isName
        obtain rfl := toList_of_componentOf isComponent
        have inPath : name.toList ∈ path.parts := by
          have inPieces : name.toList ∈ ((pieces [] path.text.toList).reverse.dropWhile List.isEmpty).reverse := by
            simp [isConcat]
          rw [pieces_eq_parts] at inPieces
          exact List.mem_reverse.mp ((List.dropWhile_sublist _).subset (List.mem_reverse.mp inPieces))
        refine ⟨before, rfl, ⟨not_mem_of_mem_parts inPath, isComponent⟩, followed, ?_⟩
        rw [HasDirectory, FileSystem.look?, Entry.bareAt?, isThere]
        rfl
      · cases found
      · cases found

theorem makeDirectory_eq_ok (made : system.makeDirectory path = .ok after) : system.Makes after := by
  unfold makeDirectory at made
  cases found : system.target path with
  | error error => simp [found, bind, Except.bind] at made
  | ok result =>
    obtain ⟨location, _ | name⟩ := result
    · simp [found, bind, Except.bind, throw, throwThe, MonadExceptOf.throw] at made
    · simp only [found, bind, Except.bind, throw, throwThe, MonadExceptOf.throw, pure, Except.pure] at made
      split at made
      · cases made
      · rename_i absent
        cases made
        obtain ⟨-, -, isFileName, -, inside⟩ := target_eq_ok found
        have nothing : system.look? (location ++ [name]) = none := by
          simpa [FileSystem.look?, Entry.bareAt?] using absent
        refine ⟨location, name, isFileName, ⟨inside, ?_, rfl, rfl⟩, nothing⟩
        intro isThere
        cases nothing.symm.trans isThere

theorem makeFirst_changes (made : system.makeFirst paths = .ok after) : ReflTransGen Makes system after := by
  induction paths generalizing after with
  | nil => cases made
  | cons path parents ih =>
    rw [makeFirst] at made
    split at made
    · cases made
      exact .refl
    · split at made
      · rename_i isMade
        cases made
        exact .single (makeDirectory_eq_ok isMade)
      · cases first : system.makeFirst parents with
        | error error => simp [first, bind, Except.bind] at made
        | ok next =>
          simp only [first, bind, Except.bind, pure, Except.pure] at made
          split at made
          · cases made
            exact ih first
          · exact (ih first).tail (makeDirectory_eq_ok made)
      · split at made
        · cases made
          exact .refl
        · cases made

theorem makeDirectories_changes (made : system.makeDirectories path = .ok after) : ReflTransGen Makes system after :=
  makeFirst_changes made

/-- What is at a location stays, or it is a new directory. -/
def Kept (system after : FileSystem) (location : List String) : Prop :=
  after.look? location = system.look? location ∨ system.look? location = none ∧ after.HasDirectory location

namespace Kept

theorem trans (first : system.Kept middle location) (second : middle.Kept after location) :
    system.Kept after location := by
  rcases second with same | ⟨nothing, isDirectory⟩
  · rcases first with before | ⟨nothing, isDirectory⟩
    · exact .inl (same.trans before)
    · exact .inr ⟨nothing, same.trans isDirectory⟩
  · rcases first with before | ⟨-, isDirectory⟩
    · exact .inr ⟨before.symm.trans nothing, isDirectory⟩
    · cases nothing.symm.trans isDirectory

theorem look?_eq (kept : system.Kept after location) (present : (system.look? location).isSome = true) :
    after.look? location = system.look? location := by
  rcases kept with same | ⟨nothing, -⟩
  · exact same
  · rw [nothing] at present
    cases present

theorem file_iff {content : Content} {modified : Nat} (kept : system.Kept after location) :
    after.look? location = some (.file content modified) ↔ system.look? location = some (.file content modified) := by
  rcases kept with same | ⟨nothing, isDirectory⟩
  · rw [same]
  · simp [nothing, show after.look? location = _ from isDirectory]

end Kept

theorem Puts.kept (puts : system.Puts after location name entry) {other : List String}
    (elsewhere : other ≠ location ++ [name]) : system.Kept after other := by
  refine .inl ?_
  rw [puts.look?, Function.update_of_ne elsewhere]

theorem Change.grows (change : system.Change after) : system.Grows after := by
  obtain ⟨_, _, _, -, puts⟩ := change
  exact puts.grows

theorem grows_of_changes (changes : ReflTransGen Change system after) : system.Grows after := by
  induction changes with
  | refl => exact .refl system
  | tail _ last ih => exact ih.trans last.grows

theorem Makes.change (makes : system.Makes after) : system.Change after := by
  obtain ⟨location, name, isFileName, puts, -⟩ := makes
  exact ⟨location, name, _, isFileName, puts⟩

theorem Makes.kept (makes : system.Makes after) (other : List String) : system.Kept after other := by
  obtain ⟨location, name, -, puts, nothing⟩ := makes
  by_cases here : other = location ++ [name]
  · subst here
    refine .inr ⟨nothing, ?_⟩
    rw [HasDirectory, puts.look?, Function.update_self]
  · exact puts.kept here

theorem kept_of_makes (makes : ReflTransGen Makes system after) (location : List String) :
    system.Kept after location := by
  induction makes with
  | refl => exact .inl rfl
  | tail _ last ih => exact ih.trans (last.kept location)

/-- A file is written into the directory that its path leads to. -/
theorem exists_puts_of_writeText {before : List (List Char)} {text : String}
    (parts : path.parts = before ++ [name.toList]) (isFileName : IsFileName name)
    (wrote : system.writeText path text = .ok after) :
    ∃ location, system.follow before = .ok location ∧
      system.Puts after location name (.file (.text text) system.clock) := by
  obtain ⟨location, followed, inside⟩ :
      ∃ location, system.follow before = .ok location ∧ system.HasDirectory location := by
    have notEmpty : ¬ name.toList.isEmpty = true := by simpa using isFileName.ne_nil
    have whole : ((pieces [] path.text.toList).reverse.dropWhile List.isEmpty).reverse = before ++ [name.toList] := by
      rw [pieces_eq_parts, parts]
      exact List.rdropWhile_concat_neg List.isEmpty before name.toList notEmpty
    cases found : system.target path with
    | error error => simp [writeText, write, found, bind, Except.bind] at wrote
    | ok result =>
      obtain ⟨location, _ | other⟩ := result
      · simp [writeText, write, found, bind, Except.bind, throw, throwThe, MonadExceptOf.throw] at wrote
      · obtain ⟨start, split, -, followed, inside⟩ := target_eq_ok found
        obtain rfl := List.append_inj_left' (whole.symm.trans split) rfl
        exact ⟨location, followed, inside⟩
  exact ⟨location, followed, writeText_eq_ok parts isFileName followed inside wrote⟩

end FileSystem

end SiteQuery
