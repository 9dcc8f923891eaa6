import Mathlib.Data.List.Induction
import SiteQuery.Files.Snapshot
import SiteQuery.Proofs.Files.Trees

/-!
Following a path.

Every piece on the way needs a directory to stand in, and what it leads to has to be there. Where a path leads is
what it spells, and it leads there as long as nothing on the way goes: `FileSystem.Grows.locate`.
-/

namespace SiteQuery.FileSystem

def look? (system : FileSystem) (location : List String) : Option Entry := system.tree.bareAt? location

def HasDirectory (system : FileSystem) (location : List String) : Prop := system.look? location = some (.directory [])

theorem look?_eq_file_iff {system : FileSystem} {location : List String} {content : Content} {modified : Nat} :
    system.look? location = some (.file content modified) ↔ system.tree.at? location = some (.file content modified) := by
  rw [look?, Entry.bareAt?, Option.map_eq_some_iff]
  constructor
  · rintro ⟨entry, isEntry, isBare⟩
    cases entry with
    | file => rwa [show Entry.file content modified = _ from isBare.symm]
    | directory => cases isBare
  · exact fun isFile => ⟨_, isFile, rfl⟩

/-- Where a component leads. -/
def enter (location : List String) : Component → List String
  | .name name => location ++ [name]
  | .parent => location.dropLast
  | .root | .current => location

/-- Where a piece leads. -/
def descend (location : List String) (piece : List Char) : List String :=
  (Path.componentOf piece).elim location (enter location)

variable {system after : FileSystem} {location next : List String} {piece : List Char} {pieces : List (List Char)}
  {path other : Path} {text : String}

theorem descend_name {name : String} (isName : Path.componentOf piece = some (.name name)) :
    descend location piece = location ++ [name] := by
  rw [descend, isName]
  rfl

theorem descend_padding (isPadding : Path.componentOf piece = none) : descend location piece = location := by
  rw [descend, isPadding]
  rfl

theorem HasDirectory.dropLast (isDirectory : system.HasDirectory location) : system.HasDirectory location.dropLast := by
  cases location using List.reverseRecOn with
  | nil => exact isDirectory
  | append_singleton start last =>
    rw [List.dropLast_concat]
    exact Entry.bareAt?_of_append (Option.isSome_of_mem isDirectory) (List.cons_ne_nil last [])

theorem isSome_look?_concat {entries : List (String × Entry)}
    (there : system.tree.at? location = some (.directory entries)) (name : String) :
    (system.look? (location ++ [name])).isSome = (Entry.lookup? name entries).isSome := by
  simp only [look?, Entry.bareAt?, Option.isSome_map, Entry.at?_append, there, Option.bind_some, Entry.at?]
  cases Entry.lookup? name entries <;> rfl

theorem step_eq_ok : step system.tree location piece = .ok next ↔
    system.HasDirectory location ∧ next = descend location piece ∧ (system.look? next).isSome = true := by
  have present {entry : Entry} (there : system.tree.at? location = some entry) :
      (system.look? location).isSome = true := by
    simp [look?, Entry.bareAt?, there]
  cases found : system.tree.at? location with
  | none => simp [step, found, HasDirectory, look?, Entry.bareAt?]
  | some entry =>
    cases entry with
    | file content modified => simp [step, found, HasDirectory, look?, Entry.bareAt?, Entry.bare]
    | directory entries =>
      have isDirectory : system.HasDirectory location := by simp [HasDirectory, look?, Entry.bareAt?, found, Entry.bare]
      simp only [step, found, isDirectory, true_and]
      cases component : Path.componentOf piece with
      | none =>
        rw [descend_padding component]
        constructor
        · rintro ⟨⟩
          exact ⟨rfl, present found⟩
        · rintro ⟨rfl, -⟩
          rfl
      | some component' =>
        simp only [descend, component, Option.elim_some]
        cases component' with
        | name name =>
          have below := isSome_look?_concat found name
          by_cases known : (Entry.lookup? name entries).isSome = true
          · simp only [known, if_true, Except.ok.injEq, enter]
            constructor
            · rintro rfl
              exact ⟨rfl, below.trans known⟩
            · rintro ⟨rfl, -⟩
              rfl
          · simp only [known, Bool.false_eq_true, if_false, reduceCtorEq, false_iff, enter, not_and]
            rintro rfl isThere
            exact known (below.symm.trans isThere)
        | parent =>
          constructor
          · rintro ⟨⟩
            exact ⟨rfl, Option.isSome_of_mem isDirectory.dropLast⟩
          · rintro ⟨rfl, -⟩
            rfl
        | root | current =>
          constructor
          · rintro ⟨⟩
            exact ⟨rfl, present found⟩
          · rintro ⟨rfl, -⟩
            rfl

/-- The way leads through directories, and everything on it is there. -/
theorem foldlM_step_cons : (piece :: pieces).foldlM (step system.tree) location = .ok next ↔
    system.HasDirectory location ∧ (system.look? (descend location piece)).isSome = true ∧
      pieces.foldlM (step system.tree) (descend location piece) = .ok next := by
  rw [List.foldlM_cons]
  cases first : step system.tree location piece with
  | error error =>
    simp only [bind, Except.bind, reduceCtorEq, false_iff, not_and]
    intro isDirectory present
    rw [step_eq_ok.mpr ⟨isDirectory, rfl, present⟩] at first
    cases first
  | ok reached =>
    obtain ⟨isDirectory, rfl, present⟩ := step_eq_ok.mp first
    simp [bind, Except.bind, isDirectory, present]

theorem follow_append {before rest : List (List Char)} : system.follow (before ++ rest) = .ok next ↔
    ∃ location, system.follow before = .ok location ∧ rest.foldlM (step system.tree) location = .ok next := by
  rw [follow, follow, List.foldlM_append]
  cases before.foldlM (step system.tree) [] <;> simp [bind, Except.bind]

theorem follow_concat : system.follow (pieces ++ [piece]) = .ok next ↔
    ∃ location, system.follow pieces = .ok location ∧ system.HasDirectory location ∧ next = descend location piece ∧
      (system.look? next).isSome = true := by
  rw [follow_append]
  refine exists_congr fun location => and_congr_right fun _ => ?_
  rw [foldlM_step_cons]
  constructor
  · rintro ⟨isDirectory, present, ⟨⟩⟩
    exact ⟨isDirectory, rfl, present⟩
  · rintro ⟨isDirectory, rfl, present⟩
    exact ⟨isDirectory, present, rfl⟩

/-- Padding at the end of the way changes nothing, as long as it ends in a directory. -/
theorem follow_of_append_padding {padding : List (List Char)}
    (arePadding : ∀ piece ∈ padding, Path.componentOf piece = none)
    (followed : system.follow (pieces ++ padding) = .ok location) : system.follow pieces = .ok location := by
  induction padding using List.reverseRecOn generalizing location with
  | nil => rwa [List.append_nil] at followed
  | append_singleton others last ih =>
    rw [← List.append_assoc, follow_concat] at followed
    obtain ⟨reached, followed, -, rfl, -⟩ := followed
    rw [descend_padding (arePadding last (by simp))]
    exact ih (fun piece member => arePadding piece (List.mem_append_left _ member)) followed

theorem foldlM_step_eq (followed : pieces.foldlM (step system.tree) location = .ok next) :
    next = pieces.foldl descend location := by
  induction pieces generalizing location with
  | nil => cases followed; rfl
  | cons first rest ih => exact ih (foldlM_step_cons.mp followed).2.2

/-- Where the components of a path lead. -/
theorem spelled_eq (path : Path) : spelled path = (Path.pieces [] path.text.toList).foldl descend [] := by
  have ofPieces (pieces : List (List Char)) (location : List String) :
      (pieces.filterMap Path.componentOf).foldl enter location = pieces.foldl descend location := by
    rw [List.foldl_filterMap]
    congr 1
    funext location piece
    rw [descend]
    cases Path.componentOf piece <;> rfl
  have isFold : spelled path = path.components.foldl enter [] := rfl
  rw [isFold, Path.components, List.foldl_append, ← ofPieces]
  congr 1
  split
  · rfl
  · split <;> rfl

/-- What is on the way to a location, and what it leads to, is there. -/
theorem isSome_of_follow (followed : system.follow pieces = .ok location) : (system.look? location).isSome = true := by
  cases pieces using List.reverseRecOn with
  | nil =>
    cases followed
    rfl
  | append_singleton others last =>
    obtain ⟨-, -, -, -, present⟩ := follow_concat.mp followed
    exact present

theorem step_congr (here : after.look? location = system.look? location)
    (below : ∀ name, Path.componentOf piece = some (.name name) →
      after.look? (location ++ [name]) = system.look? (location ++ [name])) :
    step after.tree location piece = step system.tree location piece := by
  unfold step
  cases found : system.tree.at? location with
  | none =>
    rw [look?, look?, Entry.bareAt?, Entry.bareAt?, found] at here
    rw [Option.map_eq_none_iff.mp here]
  | some entry =>
    rw [look?, look?, Entry.bareAt?, Entry.bareAt?, found] at here
    obtain ⟨other, isOther, sameKind⟩ := Option.map_eq_some_iff.mp here
    rw [isOther]
    cases entry with
    | file content modified =>
      cases other with
      | file => rfl
      | directory => cases sameKind
    | directory entries =>
      cases other with
      | file => cases sameKind
      | directory others =>
        dsimp only
        split
        · rename_i name isName
          rw [← isSome_look?_concat isOther name, ← isSome_look?_concat found name, below name isName]
        · rfl
        · rfl

/-- Where a name is not on the way, what lies below it does not matter. -/
theorem follow_congr {name : String} (same : ∀ location, name ∉ location → after.look? location = system.look? location)
    (elsewhere : ∀ piece ∈ pieces, Path.componentOf piece ≠ some (.name name)) :
    after.follow pieces = system.follow pieces := by
  have onward (location : List String) (outside : name ∉ location) :
      pieces.foldlM (step after.tree) location = pieces.foldlM (step system.tree) location := by
    induction pieces generalizing location with
    | nil => rfl
    | cons piece rest ih =>
      obtain ⟨notName, restElsewhere⟩ := List.forall_mem_cons.mp elsewhere
      have below (other : String) (isOther : Path.componentOf piece = some (.name other)) : name ∉ location ++ [other] := by
        have apart : name ≠ other := by
          rintro rfl
          exact notName isOther
        simp [outside, apart]
      rw [List.foldlM_cons, List.foldlM_cons,
        step_congr (same location outside) fun other isOther => same _ (below other isOther)]
      cases first : step system.tree location piece with
      | error error => rfl
      | ok next =>
        obtain ⟨-, rfl, -⟩ := step_eq_ok.mp first
        refine ih restElsewhere _ ?_
        unfold descend
        cases isComponent : Path.componentOf piece with
        | none => exact outside
        | some component =>
          cases component with
          | name other => exact below other isComponent
          | parent => exact fun member => outside (List.dropLast_subset location member)
          | root | current => exact outside
  exact onward [] List.not_mem_nil

theorem location_of_locate (located : system.locate path = .ok location) : location = spelled path := by
  unfold locate at located
  split at located
  · cases located
  · rw [spelled_eq]
    exact foldlM_step_eq located

theorem spelled_congr (same : path.same other = true) : spelled path = spelled other := by
  rw [spelled, spelled, beq_iff_eq.mp same]

theorem name_of_mem_spelled {name : String} (member : name ∈ spelled path) : .name name ∈ path.components := by
  have ofFold (components : List Component) (location : List String)
      (member : name ∈ components.foldl (fun location component =>
        match component with
        | .name name => location ++ [name]
        | .parent => location.dropLast
        | .root | .current => location) location) : name ∈ location ∨ .name name ∈ components := by
    induction components generalizing location with
    | nil => exact .inl member
    | cons first rest ih =>
      rcases ih _ member with inFirst | inRest
      · cases first with
        | name other =>
          rcases List.mem_append.mp inFirst with old | new
          · exact .inl old
          · exact .inr (List.mem_singleton.mp new ▸ List.mem_cons_self)
        | parent => exact .inl (List.dropLast_subset location inFirst)
        | root => exact .inl inFirst
        | current => exact .inl inFirst
      · exact .inr (List.mem_cons_of_mem _ inRest)
  exact (ofFold _ _ member).resolve_left List.not_mem_nil

theorem readText_eq_ok : system.readText path = .ok text ↔
    ∃ location modified, system.locate path = .ok location ∧
      system.look? location = some (.file (.text text) modified) := by
  unfold readText entry
  cases located : system.locate path with
  | error error => simp [bind, Except.bind]
  | ok location =>
    cases found : system.tree.at? location with
    | none => simp [found, look?, Entry.bareAt?, bind, Except.bind, throw, throwThe, MonadExceptOf.throw]
    | some entry =>
      rcases entry with ⟨text | bytes, modified⟩ | entries <;>
        simp [found, look?, Entry.bareAt?, Entry.bare, bind, Except.bind, pure, Except.pure, throw, throwThe,
          MonadExceptOf.throw]

theorem isDirectory_iff : system.isDirectory path = true ↔
    ∃ location, system.locate path = .ok location ∧ system.HasDirectory location := by
  unfold isDirectory entry
  cases located : system.locate path with
  | error error => simp [bind, Except.bind]
  | ok location =>
    cases found : system.tree.at? location with
    | none => simp [found, HasDirectory, look?, Entry.bareAt?, bind, Except.bind, throw, throwThe, MonadExceptOf.throw]
    | some entry =>
      cases entry <;>
        simp [found, HasDirectory, look?, Entry.bareAt?, Entry.bare, bind, Except.bind, pure, Except.pure]

theorem isSome_of_locate (located : system.locate path = .ok location) : (system.look? location).isSome = true := by
  unfold locate at located
  split at located
  · cases located
  · exact isSome_of_follow located

theorem look?_cases (present : (system.look? location).isSome = true) :
    (∃ content modified, system.look? location = some (.file content modified)) ∨ system.HasDirectory location := by
  rw [look?, Entry.bareAt?, Option.isSome_map] at present
  obtain ⟨entry, isEntry⟩ := Option.isSome_iff_exists.mp present
  rw [HasDirectory, look?, Entry.bareAt?, isEntry]
  cases entry with
  | file content modified => exact .inl ⟨content, modified, rfl⟩
  | directory entries => exact .inr rfl

/-- What is read at a path depends on where it leads, and on what is there. -/
theorem readText_congr (sameWay : after.locate path = system.locate path)
    (same : ∀ location, system.locate path = .ok location → after.look? location = system.look? location) :
    after.readText path = system.readText path ∧ after.modified path = system.modified path := by
  unfold readText modified entry
  rw [sameWay]
  cases located : system.locate path with
  | error error => exact ⟨rfl, rfl⟩
  | ok location =>
    have sameBare := same location located
    rw [look?, look?, Entry.bareAt?, Entry.bareAt?] at sameBare
    cases found : system.tree.at? location with
    | none =>
      rw [found] at sameBare
      simp [bind, Except.bind, found, Option.map_eq_none_iff.mp sameBare]
    | some entry =>
      rw [found] at sameBare
      obtain ⟨other, isOther, sameKind⟩ := Option.map_eq_some_iff.mp sameBare
      cases entry <;> cases other <;> cases sameKind <;> simp [bind, Except.bind, pure, Except.pure, found, isOther]

/-- Paths of the same components lead to the same text. -/
theorem readText_unique {a b : String} (same : path.same other = true) (ofPath : system.readText path = .ok a)
    (ofOther : system.readText other = .ok b) : a = b := by
  obtain ⟨location, _, located, found⟩ := readText_eq_ok.mp ofPath
  obtain ⟨location', _, located', found'⟩ := readText_eq_ok.mp ofOther
  rw [location_of_locate located, spelled_congr same, ← location_of_locate located'] at found
  have sameEntry := Option.some.inj (found.symm.trans found')
  injection sameEntry with sameContent _
  exact Content.text.inj sameContent

/-- Directories stay, and nothing goes. -/
structure Grows (system after : FileSystem) : Prop where
  directory : ∀ location, system.HasDirectory location → after.HasDirectory location
  present : ∀ location, (system.look? location).isSome = true → (after.look? location).isSome = true

namespace Grows

theorem refl (system : FileSystem) : system.Grows system := ⟨fun _ => id, fun _ => id⟩

theorem trans {last : FileSystem} (first : system.Grows after) (second : after.Grows last) : system.Grows last :=
  ⟨fun location isDirectory => second.directory location (first.directory location isDirectory),
    fun location present => second.present location (first.present location present)⟩

theorem follow (grows : system.Grows after) (followed : system.follow pieces = .ok location) :
    after.follow pieces = .ok location := by
  induction pieces using List.reverseRecOn generalizing location with
  | nil => exact followed
  | append_singleton others last ih =>
    rw [follow_concat] at followed ⊢
    obtain ⟨reached, followed, isDirectory, isNext, present⟩ := followed
    exact ⟨reached, ih followed, grows.directory reached isDirectory, isNext, grows.present location present⟩

theorem locate (grows : system.Grows after) (located : system.locate path = .ok location) :
    after.locate path = .ok location := by
  unfold FileSystem.locate at located ⊢
  by_cases isEmpty : path.text.isEmpty = true
  · rw [if_pos isEmpty] at located
    cases located
  · rw [if_neg isEmpty] at located ⊢
    exact grows.follow located

/-- A text stays if what is at its location does. -/
theorem readText (grows : system.Grows after) (read : system.readText path = .ok text)
    (same : after.look? (spelled path) = system.look? (spelled path)) : after.readText path = .ok text := by
  obtain ⟨location, modified, located, found⟩ := readText_eq_ok.mp read
  obtain rfl := location_of_locate located
  exact readText_eq_ok.mpr ⟨_, modified, grows.locate located, same.trans found⟩

end Grows

/-- Where an entry is put in place of nothing, or of one of its kind, everything else stays. -/
theorem grows_update {entry : Entry} (changed : after.look? = Function.update system.look? location (some entry))
    (kind : system.HasDirectory location → entry = .directory []) : system.Grows after := by
  constructor
  · intro other isDirectory
    rw [HasDirectory, changed]
    by_cases here : other = location
    · subst here
      rw [Function.update_self, kind isDirectory]
    · rwa [Function.update_of_ne here]
  · intro other present
    rw [changed]
    by_cases here : other = location
    · subst here
      rw [Function.update_self]
      rfl
    · rwa [Function.update_of_ne here]

end SiteQuery.FileSystem
