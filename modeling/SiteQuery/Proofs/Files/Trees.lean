import Mathlib.Logic.Function.Basic
import SiteQuery.Files.Basic

/-!
Trees of files, location by location.

`Entry.bareAt?` tells what is at each location. It is all that there is to know of a tree, and an entry that is put
into a directory changes it at its own location only: `Entry.bareAt?_alter`.
-/

namespace SiteQuery.Entry

/-- The entry, without the entries in a directory. -/
def bare : Entry → Entry
  | file content modified => file content modified
  | directory _ => directory []

def bareAt? (tree : Entry) (location : List String) : Option Entry := (tree.at? location).map bare

variable {tree entry : Entry} {name : String} {entries : List (String × Entry)} {location : List String}

@[simp] theorem bare_eq_directory : entry.bare = directory [] ↔ ∃ entries, entry = directory entries := by
  cases entry <;> simp [bare]

theorem lookup?_cons (key : String) (first : Entry) (rest : List (String × Entry)) (other : String) :
    lookup? other ((key, first) :: rest) = if key = other then some first else lookup? other rest := by
  by_cases same : key = other <;> simp [lookup?, same]

theorem lookup?_insert (name : String) (entry : Entry) (entries : List (String × Entry)) (other : String) :
    lookup? other (insert name entry entries) = if name = other then some entry else lookup? other entries := by
  induction entries with
  | nil => exact lookup?_cons name entry [] other
  | cons first rest ih =>
    obtain ⟨key, old⟩ := first
    unfold insert
    by_cases isKey : key = name
    · subst isKey
      rw [if_pos rfl, lookup?_cons, lookup?_cons]
      by_cases same : key = other
      · rw [if_pos same, if_pos same]
      · rw [if_neg same, if_neg same, if_neg same]
    · rw [if_neg isKey, lookup?_cons, lookup?_cons, ih]
      by_cases same : key = other
      · have apart : name ≠ other := fun also => isKey (same.trans also.symm)
        rw [if_pos same, if_pos same, if_neg apart]
      · rw [if_neg same, if_neg same]

theorem at?_append (tree : Entry) (location rest : List String) :
    tree.at? (location ++ rest) = (tree.at? location).bind (·.at? rest) := by
  induction location generalizing tree with
  | nil => simp [at?]
  | cons first others ih =>
    cases tree with
    | file content modified => simp [at?]
    | directory entries =>
      simp only [List.cons_append, at?, Option.bind_assoc]
      congr 1
      funext entry
      exact ih entry

theorem bareAt?_nil (tree : Entry) : tree.bareAt? [] = some tree.bare := rfl

theorem bareAt?_cons (name : String) (rest : List String) :
    (directory entries).bareAt? (name :: rest) = (lookup? name entries).bind (·.bareAt? rest) := by
  simp only [bareAt?, at?, Option.map_bind]
  rfl

theorem exists_directory_of_bareAt? (there : tree.bareAt? location = some (directory [])) :
    ∃ entries, tree.at? location = some (directory entries) := by
  simp only [bareAt?, Option.map_eq_some_iff, bare_eq_directory] at there
  obtain ⟨_, there, entries, rfl⟩ := there
  exact ⟨entries, there⟩

/-- A location lies in directories all the way. -/
theorem bareAt?_of_append {rest : List String} (there : (tree.bareAt? (location ++ rest)).isSome = true)
    (below : rest ≠ []) : tree.bareAt? location = some (directory []) := by
  rw [bareAt?, Option.isSome_map, at?_append] at there
  cases found : tree.at? location with
  | none => simp [found] at there
  | some entry =>
    cases entry with
    | file content modified =>
      obtain ⟨first, others, rfl⟩ := List.exists_cons_of_ne_nil below
      simp [found, at?] at there
    | directory entries => simp [bareAt?, found, bare]

/-- There is nothing below a location without a directory. -/
theorem bareAt?_append_eq_none (free : tree.bareAt? location ≠ some (directory [])) {rest : List String}
    (below : rest ≠ []) : tree.bareAt? (location ++ rest) = none := by
  by_contra present
  exact free (bareAt?_of_append (Option.isSome_iff_ne_none.mpr present) below)

theorem bareAt?_of_bare (isBare : entry.bare = entry) {rest : List String} (below : rest ≠ []) :
    entry.bareAt? rest = none := by
  obtain ⟨first, others, rfl⟩ := List.exists_cons_of_ne_nil below
  cases entry with
  | file content modified => rfl
  | directory entries =>
    obtain rfl : [] = entries := directory.inj isBare
    rfl

/-- A new entry in a directory is found at its location, and everywhere else there is what was there before. -/
theorem bareAt?_alter (there : tree.bareAt? location = some (directory [])) (isBare : entry.bare = entry)
    (free : tree.bareAt? (location ++ [name]) ≠ some (directory [])) :
    (tree.alter (insert name entry) location).bareAt? =
      Function.update tree.bareAt? (location ++ [name]) (some entry) := by
  funext other
  induction location generalizing tree other with
  | nil =>
    obtain ⟨entries, rfl⟩ := bare_eq_directory.mp (Option.some.inj there)
    rw [alter, List.nil_append]
    cases other with
    | nil => rw [Function.update_of_ne (by simp)]; rfl
    | cons first rest =>
      rw [bareAt?_cons, lookup?_insert]
      by_cases same : name = first
      · subst same
        rw [if_pos rfl, Option.bind_some]
        by_cases here : rest = []
        · subst here
          rw [Function.update_self, bareAt?_nil, isBare]
        · rw [Function.update_of_ne (by simpa using here), bareAt?_of_bare isBare here]
          exact (bareAt?_append_eq_none free here).symm
      · rw [if_neg same, Function.update_of_ne (by simp [Ne.symm same]), bareAt?_cons]
  | cons head more ih =>
    have atTop : tree.bareAt? [] = some (directory []) :=
      bareAt?_of_append (Option.isSome_of_mem there) (List.cons_ne_nil head more)
    obtain ⟨entries, rfl⟩ := bare_eq_directory.mp (Option.some.inj atTop)
    cases found : lookup? head entries with
    | none => simp [bareAt?_cons, found] at there
    | some sub =>
      simp only [List.cons_append, bareAt?_cons, found, Option.bind_some] at there free
      simp only [alter, found]
      cases other with
      | nil => rw [Function.update_of_ne (by simp)]; rfl
      | cons first rest =>
        rw [bareAt?_cons, lookup?_insert]
        by_cases same : head = first
        · subst same
          rw [if_pos rfl, Option.bind_some, ih there free]
          by_cases here : rest = more ++ [name]
          · subst here
            rw [Function.update_self, List.cons_append, Function.update_self]
          · rw [Function.update_of_ne here, Function.update_of_ne (by simpa using here), bareAt?_cons, found,
              Option.bind_some]
        · rw [if_neg same, Function.update_of_ne (by simp [Ne.symm same]), bareAt?_cons]

end SiteQuery.Entry
