import SiteQuery.Proofs.Compilation.CompiledQueries
import SiteQuery.Watch.Reaction

/-!
What a look-up by path finds, in the map of the watcher and in the store.
-/

namespace SiteQuery

namespace Watch

theorem queryText?_congr (compiled : Compilation.CompiledQueries) {a b : Path} (same : a.same b = true) :
    queryText? compiled a = queryText? compiled b := by
  simp only [queryText?, compiled.get?_congr same]

namespace ComponentMap

theorem get?_congr (components : ComponentMap) {a b : Path} (same : a.same b = true) :
    components.get? a = components.get? b := by
  simp only [get?, Path.same_congr_right same]

theorem get?_cons (path : Path) (component : PageComponent) (rest : ComponentMap) (other : Path) :
    get? ((path, component) :: rest) other = if path.same other then some component else get? rest other := by
  unfold get?
  by_cases same : path.same other = true <;> simp [same]

theorem get?_insert (components : ComponentMap) (path : Path) (component : PageComponent) (other : Path) :
    (components.insert path component).get? other =
      if path.same other then some component else components.get? other := by
  induction components with
  | nil => exact get?_cons path component [] other
  | cons entry rest ih =>
    obtain ⟨key, old⟩ := entry
    unfold insert
    by_cases isKey : key.same path = true
    · rw [if_pos isKey, get?_cons, get?_cons, Path.same_congr_left isKey]
      by_cases same : path.same other = true
      · rw [if_pos same, if_pos same]
      · rw [if_neg same, if_neg same, if_neg same]
    · rw [if_neg isKey, get?_cons, get?_cons, ih]
      by_cases same : key.same other = true
      · have apart : ¬ path.same other = true := by
          intro also
          rw [Path.same_comm] at also
          exact isKey (Path.same_trans same also)
        rw [if_pos same, if_neg apart, if_pos same]
      · rw [if_neg same, if_neg same]

end ComponentMap

namespace PageComponent

theorem find?_congr (components : List PageComponent) {a b : Path} (same : a.same b = true) :
    find? components a = find? components b := by
  simp only [find?, Path.same_congr_right same]

/-- The query of a component, if it has one and is there at all. -/
def queryOf? (components : List PageComponent) (path : Path) : Option String :=
  (find? components path).bind (·.query?)

theorem queryOf?_congr (components : List PageComponent) {a b : Path} (same : a.same b = true) :
    queryOf? components a = queryOf? components b := by
  simp only [queryOf?, find?_congr components same]

theorem find?_append (components : List PageComponent) (component : PageComponent) (other : Path) :
    find? (components ++ [component]) other =
      (find? components other).or (if component.path.same other then some component else none) := by
  by_cases same : component.path.same other = true <;> simp [find?, List.find?_append, same]

/-- A component that was missing has no query. -/
theorem queryOf?_insertMissing (components : List PageComponent) (path other : Path) :
    queryOf? (insertMissing path components) other = queryOf? components other := by
  unfold insertMissing
  by_cases known : (find? components path).isSome = true
  · rw [if_pos known]
  · rw [if_neg known]
    unfold queryOf?
    rw [find?_append]
    cases found : find? components other with
    | some component => rfl
    | none => by_cases same : path.same other = true <;> simp [same]

theorem isSome_find?_insertMissing (components : List PageComponent) (path : Path) :
    (find? (insertMissing path components) path).isSome = true := by
  unfold insertMissing
  by_cases known : (find? components path).isSome = true
  · rw [if_pos known, known]
  · rw [if_neg known, find?_append]
    simp

theorem find?_map_query (components : List PageComponent) (path other : Path) (query? : Option String) :
    find? (components.map fun component =>
        if component.path.same path then { component with query? } else component) other =
      (find? components other).map fun component =>
        if component.path.same path then { component with query? } else component := by
  have keeps (component : PageComponent) :
      (if component.path.same path then { component with query? } else component).path = component.path := by
    by_cases same : component.path.same path = true <;> simp [same]
  simp only [find?, List.find?_map, Function.comp_def, keeps]

theorem path_of_find? {components : List PageComponent} {path : Path} {component : PageComponent}
    (found : find? components path = some component) : component.path.same path = true := by
  unfold find? at found
  simpa using List.find?_some found

theorem queryOf?_setQuery (components : List PageComponent) (path : Path) (query? : Option String)
    (other : Path) :
    queryOf? (setQuery path query? components) other =
      if path.same other then query? else queryOf? components other := by
  unfold setQuery queryOf?
  rw [find?_map_query]
  by_cases same : path.same other = true
  · rw [if_pos same, ← find?_congr _ same]
    obtain ⟨component, found⟩ := Option.isSome_iff_exists.mp (isSome_find?_insertMissing components path)
    simp [found, path_of_find? found]
  · rw [if_neg same]
    have before := queryOf?_insertMissing components path other
    unfold queryOf? at before
    rw [← before]
    cases found : find? (insertMissing path components) other with
    | none => rfl
    | some component =>
      have apart : ¬ component.path.same path = true := by
        intro also
        rw [Path.same_comm] at also
        exact same (Path.same_trans also (path_of_find? found))
      simp [apart]

end PageComponent

end Watch

end SiteQuery
