import SiteQuery.Proofs.Watch.SourceChange

/-!
The store as cells: the page at a path, the query of a component, the keys that a page depends on, and the stage.

What an action does to a cell depends on what is there and on nothing else (`content_apply`), and two actions come to the
same in either order unless they clash in the cell (`commutes_iff`).
-/

namespace SiteQuery.Watch

inductive Cell where
  | page (path : String)
  | component (path : Path)
  | dependencies (page : String)
  | stage

/-- A component that is there may be without a query. -/
abbrev Cell.Content : Cell → Type
  | .page _ => Option Page
  | .component _ => Option (Option String)
  | .dependencies _ => List String
  | .stage => BootstrapStage

namespace StoreState

def content (state : StoreState) : (cell : Cell) → cell.Content
  | .page path => state.pages.find? (·.path == path)
  | .component path => (state.component? path).map (·.query?)
  | .dependencies page => state.dependenciesOf page
  | .stage => state.stage

/-- The pages with dependencies are in the order of their paths, each once. -/
def InOrder (state : StoreState) : Prop := state.dependencies.Pairwise fun a b => a.1 < b.1

end StoreState

namespace Action

def onPage (path : String) (page? : Option Page) : Action → Option Page
  | .upsertPage page => if page.path = path then some page else page?
  | _ => page?

def onComponent (path : Path) (component? : Option (Option String)) : Action → Option (Option String)
  | .addComponent added => if added.same path then component?.or (some none) else component?
  | .setQuery component query? => if component.same path then some query? else component?
  | _ => component?

def onDependencies (page : String) (keys : List String) : Action → List String
  | .addDependency dependent key => if dependent = page then insertKey key keys else keys
  | .removeDependencies pages => if page ∈ pages then [] else keys
  | _ => keys

def onStage (stage : BootstrapStage) : Action → BootstrapStage
  | .setStage stage => stage
  | _ => stage

/-- What becomes of the content of a cell. -/
def write (action : Action) : (cell : Cell) → cell.Content → cell.Content
  | .page path, page? => action.onPage path page?
  | .component path, component? => action.onComponent path component?
  | .dependencies page, keys => action.onDependencies page keys
  | .stage, stage => action.onStage stage

/-- Both write to the cell, and what is there then depends on which of them is the later one. -/
def Clashes (first second : Action) : Cell → Prop
  | .page path =>
    match first, second with
    | .upsertPage page, .upsertPage other => page.path = path ∧ other.path = path ∧ page ≠ other
    | _, _ => False
  | .component path =>
    match first, second with
    | .setQuery component query?, .setQuery other otherQuery? =>
      component.same path ∧ other.same path ∧ query? ≠ otherQuery?
    | _, _ => False
  | .dependencies page =>
    match first, second with
    | .addDependency dependent _, .removeDependencies pages => dependent = page ∧ page ∈ pages
    | .removeDependencies pages, .addDependency dependent _ => dependent = page ∧ page ∈ pages
    | _, _ => False
  | .stage =>
    match first, second with
    | .setStage stage, .setStage other => stage ≠ other
    | _, _ => False

end Action

theorem Page.find?_insert (page : Page) (pages : List Page) (path : String) :
    (page.insert pages).find? (·.path == path) =
      if page.path = path then some page else pages.find? (·.path == path) := by
  induction pages with
  | nil => by_cases here : page.path = path <;> simp [Page.insert, here]
  | cons first rest ih =>
    rw [Page.insert]
    by_cases before : page.path < first.path
    · rw [if_pos before]
      by_cases here : page.path = path <;> simp [here]
    · rw [if_neg before]
      by_cases isFirst : page.path = first.path
      · rw [if_pos isFirst]
        by_cases here : page.path = path
        · simp [here]
        · have apart : first.path ≠ path := isFirst ▸ here
          simp [here, apart]
      · rw [if_neg isFirst]
        by_cases here : first.path = path
        · have apart : page.path ≠ path := here ▸ isFirst
          simp [here, apart]
        · simp [here, ih]

theorem insertKey_comm (key other : String) (keys : List String) :
    insertKey key (insertKey other keys) = insertKey other (insertKey key keys) := by
  induction keys with
  | nil => grind [insertKey]
  | cons first rest ih => grind [insertKey]

namespace PageComponent

theorem query?_insertMissing (components : List PageComponent) (path other : Path) :
    (find? (insertMissing path components) other).map (·.query?) =
      if path.same other then ((find? components other).map (·.query?)).or (some none)
      else (find? components other).map (·.query?) := by
  unfold insertMissing
  by_cases known : (find? components path).isSome = true
  · rw [if_pos known]
    by_cases same : path.same other = true
    · rw [find?_congr components same, Option.isSome_iff_exists] at known
      obtain ⟨component, found⟩ := known
      simp [found, same]
    · simp [same]
  · rw [if_neg known, find?_append]
    by_cases same : path.same other = true
    · cases find? components other <;> simp [same]
    · simp [same]

theorem query?_setQuery (components : List PageComponent) (path : Path) (query? : Option String) (other : Path) :
    (find? (setQuery path query? components) other).map (·.query?) =
      if path.same other then some query? else (find? components other).map (·.query?) := by
  unfold setQuery
  rw [find?_map_query]
  by_cases same : path.same other = true
  · obtain ⟨component, found⟩ := Option.isSome_iff_exists.mp (isSome_find?_insertMissing components path)
    rw [if_pos same, ← find?_congr _ same]
    simp [found, path_of_find? found]
  · have before := query?_insertMissing components path other
    rw [if_neg same] at before ⊢
    rw [← before]
    cases found : find? (insertMissing path components) other with
    | none => rfl
    | some component =>
      have apart : ¬ component.path.same path = true := by
        intro also
        rw [Path.same_comm] at also
        exact same (Path.same_trans also (path_of_find? found))
      simp [apart]

end PageComponent

theorem fst_of_mem_insertDependency {page key : String} {dependencies : List (String × List String)}
    {entry : String × List String} (member : entry ∈ insertDependency page key dependencies) :
    entry.1 = page ∨ ∃ old ∈ dependencies, old.1 = entry.1 := by
  induction dependencies with
  | nil =>
    cases List.mem_singleton.mp member
    exact .inl rfl
  | cons first rest ih =>
    obtain ⟨other, keys⟩ := first
    rw [insertDependency] at member
    split at member
    · rcases List.mem_cons.mp member with rfl | old
      · exact .inl rfl
      · exact .inr ⟨entry, old, rfl⟩
    · split at member
      · rename_i isOther
        rcases List.mem_cons.mp member with rfl | old
        · exact .inl isOther.symm
        · exact .inr ⟨entry, List.mem_cons_of_mem _ old, rfl⟩
      · rcases List.mem_cons.mp member with rfl | inRest
        · exact .inr ⟨_, List.mem_cons_self, rfl⟩
        · rcases ih inRest with isPage | ⟨old, isOld, same⟩
          · exact .inl isPage
          · exact .inr ⟨old, List.mem_cons_of_mem _ isOld, same⟩

theorem pairwise_insertDependency {dependencies : List (String × List String)}
    (ordered : dependencies.Pairwise fun a b => a.1 < b.1) (page key : String) :
    (insertDependency page key dependencies).Pairwise fun a b => a.1 < b.1 := by
  induction dependencies with
  | nil => exact List.pairwise_singleton _ _
  | cons first rest ih =>
    obtain ⟨other, keys⟩ := first
    obtain ⟨fromFirst, ofRest⟩ := List.pairwise_cons.mp ordered
    rw [insertDependency]
    by_cases before : page < other
    · have fromPage : ∀ entry ∈ (other, keys) :: rest, page < entry.1 :=
        List.forall_mem_cons.mpr ⟨before, fun entry member => String.lt_trans before (fromFirst entry member)⟩
      rw [if_pos before]
      exact List.pairwise_cons.mpr ⟨fromPage, ordered⟩
    · rw [if_neg before]
      by_cases here : page = other
      · rw [if_pos here]
        exact List.pairwise_cons.mpr ⟨fromFirst, ofRest⟩
      · have after : other < page := Std.lt_of_le_of_ne before (Ne.symm here)
        rw [if_neg here]
        refine List.pairwise_cons.mpr ⟨fun entry member => ?_, ih ofRest⟩
        rcases fst_of_mem_insertDependency member with isPage | ⟨old, isOld, same⟩
        · exact isPage ▸ after
        · exact same ▸ fromFirst old isOld

theorem StoreState.InOrder.apply {state : StoreState} (ordered : state.InOrder) (action : Action) :
    (state.apply action).InOrder := by
  cases action with
  | addDependency page key => exact pairwise_insertDependency ordered page key
  | removeDependencies pages => exact List.Pairwise.filter _ ordered
  | upsertPage | addComponent | setQuery | setStage => exact ordered

/-- Where the pages are not in order, the keys of a page behind a later one would be lost. -/
theorem StoreState.dependenciesOf_addDependency {state : StoreState} (ordered : state.InOrder) (page key other : String) :
    (state.apply (.addDependency page key)).dependenciesOf other =
      if page = other then insertKey key (state.dependenciesOf other) else state.dependenciesOf other := by
  obtain ⟨pages, components, dependencies, stage⟩ := state
  unfold InOrder at ordered
  simp only [dependenciesOf, StoreState.apply]
  induction dependencies with
  | nil => by_cases here : page = other <;> simp [insertDependency, here, insertKey]
  | cons first rest ih =>
    obtain ⟨name, keys⟩ := first
    obtain ⟨fromFirst, ofRest⟩ := List.pairwise_cons.mp ordered
    rw [insertDependency]
    by_cases before : page < name
    · rw [if_pos before]
      by_cases here : page = other
      · have missing : ((name, keys) :: rest).find? (·.1 == other) = none := by
          refine List.find?_eq_none.mpr fun entry member isOther => ?_
          rw [beq_iff_eq] at isOther
          have fromPage : page < entry.1 := by
            rcases List.mem_cons.mp member with rfl | inRest
            · exact before
            · exact String.lt_trans before (fromFirst entry inRest)
          rw [isOther, ← here] at fromPage
          exact String.lt_irrefl page fromPage
        rw [missing]
        simp [here, insertKey]
      · simp [here]
    · rw [if_neg before]
      by_cases isName : page = name
      · rw [if_pos isName]
        by_cases here : page = other <;> simp [← isName, here]
      · rw [if_neg isName]
        by_cases here : name = other
        · have apart : page ≠ other := here ▸ isName
          simp [here, apart]
        · simp [here, ih ofRest]

/-- An action does the same to a cell whatever the rest of the store is. -/
theorem StoreState.content_apply {state : StoreState} (ordered : state.InOrder) (action : Action) (cell : Cell) :
    (state.apply action).content cell = action.write cell (state.content cell) := by
  cases cell with
  | page path =>
    cases action with
    | upsertPage page => exact Page.find?_insert page state.pages path
    | addComponent | setQuery | addDependency | removeDependencies | setStage => rfl
  | component other =>
    cases action with
    | addComponent path => exact PageComponent.query?_insertMissing state.components path other
    | setQuery path query? => exact PageComponent.query?_setQuery state.components path query? other
    | upsertPage | addDependency | removeDependencies | setStage => rfl
  | dependencies other =>
    cases action with
    | addDependency page key => exact dependenciesOf_addDependency ordered page key other
    | removeDependencies pages => exact dependenciesOf_removeDependencies state pages other
    | upsertPage | addComponent | setQuery | setStage => rfl
  | stage => cases action <;> rfl

namespace Action

theorem commutes_removal (dependent key : String) (pages : List String) (page : String) :
    (∀ keys, onDependencies page (onDependencies page keys (.addDependency dependent key)) (.removeDependencies pages) =
        onDependencies page (onDependencies page keys (.removeDependencies pages)) (.addDependency dependent key)) ↔
      ¬ (dependent = page ∧ page ∈ pages) := by
  by_cases clash : dependent = page ∧ page ∈ pages
  · refine iff_of_false (fun same => ?_) (not_not_intro clash)
    have kept := same []
    simp only [onDependencies, if_pos clash.1, if_pos clash.2, insertKey] at kept
    cases kept
  · refine iff_of_true (fun content => ?_) clash
    by_cases here : dependent = page
    · have apart : page ∉ pages := fun also => clash ⟨here, also⟩
      simp only [onDependencies, if_neg apart]
    · simp only [onDependencies, if_neg here]

theorem commutes_iff (first second : Action) (cell : Cell) :
    (∀ content, second.write cell (first.write cell content) = first.write cell (second.write cell content)) ↔
      ¬ first.Clashes second cell := by
  cases cell with
  | page path =>
    simp only [write, Clashes]
    cases first <;> cases second
    case upsertPage.upsertPage page other =>
      by_cases here : page.path = path <;> by_cases also : other.path = path <;> simp [onPage, here, also, eq_comm]
    all_goals exact iff_of_true (fun _ => rfl) id
  | component path =>
    simp only [write, Clashes]
    cases first <;> cases second
    case addComponent.addComponent added other =>
      by_cases here : added.same path = true <;> by_cases also : other.same path = true <;>
        simp [onComponent, here, also]
    case addComponent.setQuery added other query? =>
      by_cases here : added.same path = true <;> by_cases also : other.same path = true <;>
        simp [onComponent, here, also]
    case setQuery.addComponent other query? added =>
      by_cases here : added.same path = true <;> by_cases also : other.same path = true <;>
        simp [onComponent, here, also]
    case setQuery.setQuery component query? other otherQuery? =>
      by_cases here : component.same path = true <;> by_cases also : other.same path = true <;>
        simp [onComponent, here, also, eq_comm]
    all_goals exact iff_of_true (fun _ => rfl) id
  | dependencies page =>
    simp only [write, Clashes]
    cases first <;> cases second
    case addDependency.addDependency dependent key other otherKey =>
      refine iff_of_true (fun content => ?_) id
      by_cases here : dependent = page <;> by_cases also : other = page <;> simp [onDependencies, here, also]
      exact insertKey_comm otherKey key content
    case addDependency.removeDependencies dependent key pages => exact commutes_removal dependent key pages page
    case removeDependencies.addDependency pages dependent key =>
      exact (forall_congr' fun _ => eq_comm).trans (commutes_removal dependent key pages page)
    case removeDependencies.removeDependencies pages others =>
      refine iff_of_true (fun content => ?_) id
      by_cases here : page ∈ pages <;> by_cases also : page ∈ others <;> simp [onDependencies, here, also]
    all_goals exact iff_of_true (fun _ => rfl) id
  | stage =>
    simp only [write, Clashes]
    cases first <;> cases second
    case setStage.setStage stage other => simp [onStage, eq_comm]
    all_goals exact iff_of_true (fun _ => rfl) id

end Action

end SiteQuery.Watch
