import SiteQuery.Proofs.Files.Following
import SiteQuery.Proofs.Files.Spelling

/-!
What making a directory and writing a file do, where the directory to put it in is there.
-/

namespace SiteQuery.FileSystem

open SiteQuery.Path

variable {system after : FileSystem} {path : Path} {before : List (List Char)} {name text : String}
  {location : List String}

/-- An entry is put into a directory that is there, and not in place of a directory. -/
structure Puts (system after : FileSystem) (location : List String) (name : String) (entry : Entry) : Prop where
  inside : system.HasDirectory location
  free : ¬ system.HasDirectory (location ++ [name])
  isBare : entry.bare = entry
  tree : after.tree = system.tree.alter (Entry.insert name entry) location

namespace Puts

variable {entry : Entry}

theorem look? (puts : system.Puts after location name entry) :
    after.look? = Function.update system.look? (location ++ [name]) (some entry) := by
  have changed := Entry.bareAt?_alter puts.inside puts.isBare puts.free
  rwa [← puts.tree] at changed

theorem grows (puts : system.Puts after location name entry) : system.Grows after :=
  grows_update puts.look? fun isDirectory => absurd isDirectory puts.free

end Puts

/-- The way to a name leads through the directory before it. -/
theorem follow_name (followed : system.follow before = .ok location) (isFileName : IsFileName name) {found : List String}
    (isThere : system.follow (before ++ [name.toList]) = .ok found) : found = location ++ [name] := by
  obtain ⟨reached, isReached, -, rfl, -⟩ := follow_concat.mp isThere
  cases followed.symm.trans isReached
  exact descend_name isFileName.isComponent

theorem locate_of_parts (parts : path.parts = before ++ [name.toList]) (isFileName : IsFileName name) :
    system.locate path = system.follow (before ++ [name.toList]) := by
  rw [locate, text_ne_empty parts isFileName, pieces_eq_parts, parts]
  rfl

theorem target_of_parts (parts : path.parts = before ++ [name.toList]) (isFileName : IsFileName name)
    (followed : system.follow before = .ok location) (isDirectory : system.HasDirectory location) :
    system.target path = .ok (location, some name) := by
  have notEmpty : ¬ name.toList.isEmpty = true := by simpa using isFileName.ne_nil
  have whole : ((pieces [] path.text.toList).reverse.dropWhile List.isEmpty).reverse = before ++ [name.toList] := by
    rw [pieces_eq_parts, parts]
    exact List.rdropWhile_concat_neg List.isEmpty before name.toList notEmpty
  obtain ⟨entries, there⟩ := Entry.exists_directory_of_bareAt? isDirectory
  simp [target, whole, followed, isFileName.isComponent, there, bind, Except.bind, pure, Except.pure]

theorem makeDirectory_of_parts (parts : path.parts = before ++ [name.toList]) (isFileName : IsFileName name)
    (followed : system.follow before = .ok location) (isDirectory : system.HasDirectory location) :
    system.makeDirectory path =
      if (system.look? (location ++ [name])).isSome then .error .alreadyExists
      else .ok { system with tree := system.tree.alter (Entry.insert name (.directory [])) location } := by
  have present : (system.look? (location ++ [name])).isSome = (system.tree.at? (location ++ [name])).isSome := by
    rw [look?, Entry.bareAt?, Option.isSome_map]
  rw [makeDirectory, target_of_parts parts isFileName followed isDirectory, present]
  simp only [bind, Except.bind, pure, Except.pure, throw, throwThe, MonadExceptOf.throw]

/-- Where the parent is there, making directories puts at most one there. -/
theorem makeDirectories_eq_ok (parts : path.parts = before ++ [name.toList]) (isFileName : IsFileName name)
    (followed : system.follow before = .ok location) (isDirectory : system.HasDirectory location)
    (made : system.makeDirectories path = .ok after) :
    (system.look? (location ++ [name]) = none ∨ system.HasDirectory (location ++ [name])) ∧
      after.look? = Function.update system.look? (location ++ [name]) (some (.directory [])) ∧
      after.clock = system.clock := by
  rw [makeDirectories, ancestors, makeFirst, text_ne_empty parts isFileName,
    makeDirectory_of_parts parts isFileName followed isDirectory] at made
  by_cases present : (system.look? (location ++ [name])).isSome = true
  · simp only [present, if_true, Bool.false_eq_true, if_false] at made
    by_cases isThere : system.isDirectory path = true
    · rw [if_pos isThere, Except.ok.injEq] at made
      subst made
      obtain ⟨found, located, hasDirectory⟩ := isDirectory_iff.mp isThere
      rw [locate_of_parts parts isFileName] at located
      obtain rfl := follow_name followed isFileName located
      exact ⟨.inr hasDirectory, (Function.update_eq_self_iff.mpr hasDirectory.symm).symm, rfl⟩
    · rw [if_neg isThere] at made
      cases made
  · have free : system.look? (location ++ [name]) = none := by simpa using present
    simp only [present, Bool.false_eq_true, if_false, Except.ok.injEq] at made
    subst made
    refine ⟨.inl free, ?_, rfl⟩
    refine Entry.bareAt?_alter isDirectory rfl ?_
    intro isThere
    cases free.symm.trans isThere

/-- A file is written where there is no directory. -/
theorem writeText_eq_ok (parts : path.parts = before ++ [name.toList]) (isFileName : IsFileName name)
    (followed : system.follow before = .ok location) (isDirectory : system.HasDirectory location)
    (wrote : system.writeText path text = .ok after) :
    system.Puts after location name (.file (.text text) system.clock) := by
  simp only [writeText, write, target_of_parts parts isFileName followed isDirectory, bind, Except.bind, throw, throwThe,
    MonadExceptOf.throw, pure, Except.pure] at wrote
  have free : ¬ system.HasDirectory (location ++ [name]) := by
    intro hasDirectory
    obtain ⟨entries, there⟩ := Entry.exists_directory_of_bareAt? hasDirectory
    simp [there] at wrote
  refine ⟨isDirectory, free, rfl, ?_⟩
  split at wrote
  · cases wrote
  · rename_i written isWritten
    cases wrote
    split at isWritten <;> cases isWritten
    rfl

end SiteQuery.FileSystem
