import SiteQuery.Proofs.Watch.Reruns

/-!
A changed source whose reaction nothing comes between.

`Change.Ends` follows the reaction alone to its end, and there is one end for each result of the pass. A query that
differs from the kept one is stored, then all pages of the component are cleared by one action, and then each of them
is run with the new query; else nothing but the number of passes changes: `sourceChanged_effects`.
-/

namespace SiteQuery.Watch

/-- In the order of their paths, each path once. -/
def Page.InOrder (pages : List Page) : Prop := pages.Pairwise fun a b => a.path < b.path

theorem Page.InOrder.insert {pages : List Page} (ordered : InOrder pages) (page : Page) :
    InOrder (page.insert pages) := by
  induction pages with
  | nil => exact List.pairwise_singleton _ _
  | cons first rest ih =>
    obtain ⟨fromFirst, ofRest⟩ := List.pairwise_cons.mp ordered
    rw [Page.insert]
    by_cases before : page.path < first.path
    · have fromPage : ∀ other ∈ first :: rest, page.path < other.path :=
        List.forall_mem_cons.mpr ⟨before, fun other member => String.lt_trans before (fromFirst other member)⟩
      rw [if_pos before]
      exact List.pairwise_cons.mpr ⟨fromPage, ordered⟩
    · rw [if_neg before]
      by_cases here : page.path = first.path
      · have fromPage : ∀ other ∈ rest, page.path < other.path := fun other member => here ▸ fromFirst other member
        rw [if_pos here]
        exact List.pairwise_cons.mpr ⟨fromPage, ofRest⟩
      · have after : first.path < page.path := Std.lt_of_le_of_ne before (Ne.symm here)
        have fromFirstStill : ∀ other ∈ page.insert rest, first.path < other.path := by
          intro other member
          rcases eq_or_mem_of_mem_insert member with isPage | inRest
          · rw [isPage]
            exact after
          · exact fromFirst other inRest
        rw [if_neg here]
        exact List.pairwise_cons.mpr ⟨fromFirstStill, ih ofRest⟩

namespace Store

theorem inOrder_dispatch {store : Store} (ordered : Page.InOrder store.state.pages) (action : Action) :
    Page.InOrder (store.dispatch action).state.pages := by
  cases action with
  | upsertPage page => exact ordered.insert page
  | addComponent | setQuery | addDependency | removeDependencies | setStage => exact ordered

theorem inOrder_foldl_dispatch {store : Store} (ordered : Page.InOrder store.state.pages) (actions : List Action) :
    Page.InOrder (actions.foldl dispatch store).state.pages := by
  induction actions generalizing store with
  | nil => exact ordered
  | cons action rest ih => exact ih (inOrder_dispatch ordered action)

end Store

theorem StoreState.dependenciesOf_removeDependencies (state : StoreState) (pages : List String) (page : String) :
    (state.apply (.removeDependencies pages)).dependenciesOf page =
      if page ∈ pages then [] else state.dependenciesOf page := by
  unfold dependenciesOf apply
  simp only [List.find?_filter]
  by_cases removed : page ∈ pages
  · have missing : ∀ entry ∈ state.dependencies,
        ¬ decide ((!pages.contains entry.1) = true ∧ (entry.1 == page) = true) = true := by
      intro entry _ kept
      simp only [Bool.not_eq_true', List.contains_eq_mem, decide_eq_false_iff_not, beq_iff_eq,
        decide_eq_true_eq] at kept
      exact kept.1 (kept.2 ▸ removed)
    rw [List.find?_eq_none.mpr missing, if_pos removed]
    rfl
  · have sameTest : (fun entry : String × List String =>
        decide ((!pages.contains entry.1) = true ∧ (entry.1 == page) = true)) = fun entry => entry.1 == page := by
      funext entry
      by_cases here : entry.1 = page
      · simp [here, removed]
      · simp [here]
    rw [sameTest, if_neg removed]

namespace Watcher

/-- What a new query does, pass and all. -/
def replaceQuery (watcher : Watcher) (path : Path) (query? : Option String) : Watcher :=
  let pages := watcher.store.state.pagesFor path
  let setQuery := Action.setQuery path query?
  let clear := Action.removeDependencies (pages.map (·.path))
  { watcher with
    components := watcher.components.insert path ⟨path, query?⟩
    store := (watcher.store.dispatch setQuery).dispatch clear
    effects := watcher.effects ++ ([.dispatched setQuery, .dispatched clear] ++ pages.map (Effect.ran · ⟨path, query?⟩))
    passes := watcher.passes + 1 }

/-- The query is new for the component, and all else of the two states is as before but for the dependencies of the
pages; what was done is in its order. -/
structure Replaced (path : Path) (query? : Option String) (pages : List Page) (before after : Watcher) : Prop where
  kept : ∀ other, after.components.get? other =
    if path.same other then some ⟨path, query?⟩ else before.components.get? other
  published : ∀ other, PageComponent.queryOf? after.store.state.components other =
    if path.same other then query? else PageComponent.queryOf? before.store.state.components other
  dependencies : ∀ page, after.store.state.dependenciesOf page =
    if page ∈ pages.map (·.path) then [] else before.store.state.dependenciesOf page
  samePages : after.store.state.pages = before.store.state.pages
  sameStage : after.store.state.stage = before.store.state.stage
  sent : after.store.sent =
    .removeDependencies (pages.map (·.path)) :: .setQuery path query? :: before.store.sent
  effects : after.effects = before.effects ++
    ([.dispatched (.setQuery path query?), .dispatched (.removeDependencies (pages.map (·.path)))] ++
      pages.map (Effect.ran · ⟨path, query?⟩))
  passes : after.passes = before.passes + 1
  others : after.timer = before.timer ∧ after.isFinished = before.isFinished ∧ after.locked = before.locked ∧
    after.now = before.now

theorem replaced_replaceQuery (watcher : Watcher) (path : Path) (query? : Option String) :
    Replaced path query? (watcher.store.state.pagesFor path) watcher (watcher.replaceQuery path query?) where
  kept := ComponentMap.get?_insert watcher.components path ⟨path, query?⟩
  published := PageComponent.queryOf?_setQuery watcher.store.state.components path query?
  dependencies page :=
    (watcher.store.state.apply (.setQuery path query?)).dependenciesOf_removeDependencies _ page
  samePages := rfl
  sameStage := rfl
  sent := rfl
  effects := rfl
  passes := rfl
  others := ⟨rfl, rfl, rfl, rfl⟩

theorem locked_unlock_lock {watcher : Watcher} {path : Path} (free : watcher.isLocked path = false) :
    ((watcher.lock path).unlock path).locked = watcher.locked := by
  have apart : ∀ other ∈ watcher.locked, (!other.same path) = true := by
    intro other member
    simp only [isLocked, List.any_eq_false] at free
    simp [free other member]
  have kept : (watcher.locked.filter fun other => !other.same path) = watcher.locked := List.filter_eq_self.mpr apart
  simp [lock, unlock, kept]

end Watcher

namespace Change

/-- The reaction goes on alone to its end. A pass that ends has the result. -/
inductive Ends (path : Path) (result : PassResult) : Watcher → Change → Watcher → ChangeOutcome → Prop
  | done {watcher outcome} : Ends path result watcher (.done outcome) watcher outcome
  | step {watcher next after change following outcome}
      (stepped : change.step path result watcher = some (next, following))
      (onward : Ends path result next following after outcome) : Ends path result watcher change after outcome

section Ends

variable {path : Path} {result : PassResult} {watcher next after : Watcher} {change following : Change}
  {outcome last : ChangeOutcome}

theorem ends_step_iff (stepped : change.step path result watcher = some (next, following)) :
    Ends path result watcher change after outcome ↔ Ends path result next following after outcome := by
  constructor
  · intro ends
    cases ends with
    | done => cases stepped
    | step alsoStepped onward =>
      cases stepped.symm.trans alsoStepped
      exact onward
  · intro onward
    exact .step stepped onward

theorem ends_done_iff : Ends path result watcher (.done outcome) after last ↔ after = watcher ∧ last = outcome := by
  constructor
  · intro ends
    cases ends with
    | done => exact ⟨rfl, rfl⟩
    | step stepped => cases stepped
  · intro same
    rw [same.1, same.2]
    exact .done

theorem ends_unlock_iff :
    Ends path result watcher (.unlock outcome) after last ↔ after = watcher.unlock path ∧ last = outcome := by
  have stepped : (Change.unlock outcome).step path result watcher = some (watcher.unlock path, .done outcome) := rfl
  rw [ends_step_iff stepped, ends_done_iff]

/-- All pages are run, one after the other. -/
theorem ends_run_iff {component : PageComponent} {paths : List String} {pages : List Page} :
    Ends path result watcher (.run component paths pages) after last ↔
      after = { watcher with effects := watcher.effects ++ pages.map (Effect.ran · component) }.unlock path ∧
        last = .updated paths := by
  induction pages generalizing watcher with
  | nil =>
    have stepped : (Change.run component paths []).step path result watcher =
        some (watcher, .unlock (.updated paths)) := rfl
    rw [ends_step_iff stepped, ends_unlock_iff, List.map_nil, List.append_nil]
  | cons page rest ih =>
    have stepped : (Change.run component paths (page :: rest)).step path result watcher =
        some (watcher.runPage page component, .run component paths rest) := rfl
    have effects : watcher.effects ++ (page :: rest).map (Effect.ran · component) =
        (watcher.runPage page component).effects ++ rest.map (Effect.ran · component) := by
      simp [Watcher.runPage]
    rw [ends_step_iff stepped, ih, effects]
    rfl

end Ends

section Outcomes

variable {path : Path} {watcher after : Watcher} {component : PageComponent} {compiled : Compilation.CompiledQueries}
  {result : PassResult} {last : ChangeOutcome}

theorem ends_look_of_unknown (unknown : watcher.components.get? path = none) :
    Ends path result watcher .look after last ↔ after = watcher ∧ last = .untracked := by
  have stepped : Change.look.step path result watcher = some (watcher, .done .untracked) := by
    simp [Change.step, unknown]
  rw [ends_step_iff stepped, ends_done_iff]

/-- A component that is known is locked, and a pass is made for it. -/
theorem ends_look_of_known (known : watcher.components.get? path = some component)
    (free : watcher.isLocked path = false) :
    Ends path result watcher .look after last ↔
      Ends path result (watcher.lock path).beginPass .endPass after last := by
  have looked : Change.look.step path result watcher = some (watcher, .lock) := by
    simp [Change.step, known]
  have locked : Change.lock.step path result watcher = some (watcher.lock path, .compile) := by
    simp [Change.step, free]
  have compiling : Change.compile.step path result (watcher.lock path) =
      some ((watcher.lock path).beginPass, .endPass) := rfl
  rw [ends_step_iff looked, ends_step_iff locked, ends_step_iff compiling]

theorem unlock_pass (free : watcher.isLocked path = false) :
    (watcher.lock path).beginPass.unlock path = watcher.beginPass := by
  have locked := Watcher.locked_unlock_lock free
  simp only [Watcher.unlock, Watcher.lock, Watcher.beginPass] at locked ⊢
  rw [locked]

theorem ends_look_of_failed (known : watcher.components.get? path = some component)
    (free : watcher.isLocked path = false) :
    Ends path none watcher .look after last ↔ after = watcher.beginPass ∧ last = .failed := by
  have ended : Change.endPass.step path none (watcher.lock path).beginPass =
      some ((watcher.lock path).beginPass, .unlock .failed) := rfl
  rw [ends_look_of_known known free, ends_step_iff ended, ends_unlock_iff, unlock_pass free]

theorem ends_look_of_same (known : watcher.components.get? path = some component)
    (free : watcher.isLocked path = false) (same : queryText? compiled path = component.query?) :
    Ends path (some compiled) watcher .look after last ↔ after = watcher.beginPass ∧ last = .unchanged := by
  have ended : Change.endPass.step path (some compiled) (watcher.lock path).beginPass =
      some ((watcher.lock path).beginPass, .compare (queryText? compiled path)) := rfl
  have stillKnown : (watcher.lock path).beginPass.components.get? path = some component := known
  have compared : (Change.compare (queryText? compiled path)).step path (some compiled) (watcher.lock path).beginPass =
      some ((watcher.lock path).beginPass, .unlock .unchanged) := by
    simp [Change.step, stillKnown, same]
  rw [ends_look_of_known known free, ends_step_iff ended, ends_step_iff compared, ends_unlock_iff, unlock_pass free]

theorem ends_look_of_differs (known : watcher.components.get? path = some component)
    (free : watcher.isLocked path = false) (differs : queryText? compiled path ≠ component.query?) :
    Ends path (some compiled) watcher .look after last ↔
      after = watcher.replaceQuery path (queryText? compiled path) ∧
        last = .updated ((watcher.store.state.pagesFor path).map (·.path)) := by
  let query? := queryText? compiled path
  let passed := (watcher.lock path).beginPass
  let kept := passed.keep ⟨path, query?⟩
  let published := kept.dispatch (.setQuery path query?)
  let pages := watcher.store.state.pagesFor path
  let clear := Action.removeDependencies (pages.map (·.path))
  have ended : Change.endPass.step path (some compiled) passed = some (passed, .compare query?) := rfl
  have stillKnown : passed.components.get? path = some component := known
  have compared : (Change.compare query?).step path (some compiled) passed = some (passed, .keep query?) := by
    simp [Change.step, stillKnown, query?, differs]
  have keeping : (Change.keep query?).step path (some compiled) passed = some (kept, .publish ⟨path, query?⟩) := rfl
  have publishing : (Change.publish ⟨path, query?⟩).step path (some compiled) kept =
      some (published, .findPages ⟨path, query?⟩) := rfl
  have finding : (Change.findPages ⟨path, query?⟩).step path (some compiled) published =
      some (published, .clear ⟨path, query?⟩ pages) := rfl
  have clearing : (Change.clear ⟨path, query?⟩ pages).step path (some compiled) published =
      some (published.dispatch clear, .run ⟨path, query?⟩ (pages.map (·.path)) pages) := rfl
  rw [ends_look_of_known known free, ends_step_iff ended, ends_step_iff compared, ends_step_iff keeping,
    ends_step_iff publishing, ends_step_iff finding, ends_step_iff clearing, ends_run_iff]
  have unlocked := Watcher.locked_unlock_lock free
  simp only [Watcher.unlock, Watcher.lock] at unlocked
  have replaced : { published.dispatch clear with
      effects := (published.dispatch clear).effects ++ pages.map (Effect.ran · ⟨path, query?⟩) }.unlock path =
        watcher.replaceQuery path query? := by
    simp [published, kept, passed, clear, Watcher.replaceQuery, Watcher.dispatch, Watcher.keep, Watcher.beginPass,
      Watcher.lock, Watcher.unlock, unlocked, pages]
  rw [replaced]

end Outcomes

end Change

section SourceChanged

variable {watcher : Watcher} {path : Path}

/-- The pass for a known component finds another query than the kept one, or one of the two is missing. -/
def Watcher.HasNewQuery (watcher : Watcher) (path : Path) (result : PassResult) : Prop :=
  ∃ component compiled, watcher.components.get? path = some component ∧ result = some compiled ∧
    queryText? compiled path ≠ component.query?

theorem StoreState.mem_pagesFor {state : StoreState} {component : Path} {page : Page} :
    page ∈ state.pagesFor component ↔ page ∈ state.pages ∧ page.component.same component = true :=
  List.mem_filter

theorem StoreState.inOrder_pagesFor {state : StoreState} (ordered : Page.InOrder state.pages) (component : Path) :
    Page.InOrder (state.pagesFor component) :=
  List.Pairwise.filter _ ordered

/-- A change that nothing comes between stores a new query, clears all pages of the component by one action and then
runs each of them, in the order of their paths; without a new query only the number of passes may change. -/
theorem sourceChanged_effects (ordered : Page.InOrder watcher.store.state.pages)
    (free : watcher.isLocked path = false) (result : PassResult) :
    ∃ after outcome,
      (∀ other last, Change.Ends path result watcher .look other last ↔ other = after ∧ last = outcome) ∧
      ((∃ paths, outcome = .updated paths) ↔ watcher.HasNewQuery path result) ∧
      (∀ paths, outcome = .updated paths → ∃ compiled pages, result = some compiled ∧ Page.InOrder pages ∧
        (∀ page, page ∈ pages ↔ page ∈ watcher.store.state.pages ∧ page.component.same path = true) ∧
        paths = pages.map (·.path) ∧
        Watcher.Replaced path (queryText? compiled path) pages watcher after) ∧
      ((∀ paths, outcome ≠ .updated paths) → after = { watcher with passes := after.passes }) ∧
      (outcome = .untracked ↔ watcher.components.get? path = none) ∧
      (outcome = .failed ↔ watcher.components.get? path ≠ none ∧ result = none) ∧
      (outcome = .untracked → after = watcher) := by
  cases known : watcher.components.get? path with
  | none =>
    have noNewQuery : ¬ watcher.HasNewQuery path result := by
      intro ⟨component, _, isKnown, _⟩
      cases known.symm.trans isKnown
    refine ⟨watcher, .untracked, fun other last => Change.ends_look_of_unknown known, ?_⟩
    simp [noNewQuery]
  | some component =>
    cases result with
    | none =>
      have noNewQuery : ¬ watcher.HasNewQuery path none := by
        intro ⟨_, compiled, _, isCompiled, _⟩
        cases isCompiled
      refine ⟨watcher.beginPass, .failed, fun other last => Change.ends_look_of_failed known free, ?_⟩
      simp [noNewQuery, Watcher.beginPass]
    | some compiled =>
      by_cases same : queryText? compiled path = component.query?
      · have noNewQuery : ¬ watcher.HasNewQuery path (some compiled) := by
          intro ⟨other, _, isKnown, isCompiled, differs⟩
          cases known.symm.trans isKnown
          cases isCompiled
          exact differs same
        refine ⟨watcher.beginPass, .unchanged, fun other last => Change.ends_look_of_same known free same, ?_⟩
        simp [noNewQuery, Watcher.beginPass]
      · have newQuery : watcher.HasNewQuery path (some compiled) := ⟨component, compiled, known, rfl, same⟩
        have replaced := watcher.replaced_replaceQuery path (queryText? compiled path)
        have ofPages := StoreState.inOrder_pagesFor ordered path
        refine ⟨watcher.replaceQuery path (queryText? compiled path),
          .updated ((watcher.store.state.pagesFor path).map (·.path)),
          fun other last => Change.ends_look_of_differs known free same, ?_⟩
        refine ⟨by simp [newQuery], ?_, by simp⟩
        intro paths isUpdated
        cases isUpdated
        exact ⟨compiled, _, rfl, ofPages, fun page => StoreState.mem_pagesFor, rfl, replaced⟩

/-- Two pages of a component that had no query, and one of another component. -/
def plainSite : Watcher where
  store := [Action.upsertPage ⟨"/b", Session.sitePath⟩, .upsertPage ⟨"/c", ⟨"/p/c.js"⟩⟩,
    .upsertPage ⟨"/a", Session.sitePath⟩, .addDependency "/a" "key", .addDependency "/c" "key"].foldl Store.dispatch {}
  timer := { delay := 100 }
  components := [(Session.sitePath, ⟨Session.sitePath, none⟩)]

theorem sourceChanged_plainSite :
    Page.InOrder plainSite.store.state.pages ∧ plainSite.isLocked Session.sitePath = false ∧
    ∃ after paths,
      Change.Ends Session.sitePath (Session.oneQuery Session.sitePath "new") plainSite .look after (.updated paths) ∧
      "/a" ∈ paths ∧ "/c" ∉ paths ∧
      after.components.get? Session.sitePath = some ⟨Session.sitePath, some "new"⟩ ∧
      after.store.state.dependenciesOf "/a" = [] ∧ after.store.state.dependenciesOf "/c" = ["key"] := by
  have noPages : Page.InOrder ({} : Store).state.pages := List.Pairwise.nil
  have ordered : Page.InOrder plainSite.store.state.pages := Store.inOrder_foldl_dispatch noPages _
  have free : plainSite.isLocked Session.sitePath = false := rfl
  have newQuery : plainSite.HasNewQuery Session.sitePath (Session.oneQuery Session.sitePath "new") :=
    ⟨⟨Session.sitePath, none⟩, _, by decide +kernel, rfl, by decide +kernel⟩
  obtain ⟨after, outcome, ends, isUpdated, updated, -⟩ :=
    sourceChanged_effects ordered free (Session.oneQuery Session.sitePath "new")
  obtain ⟨paths, rfl⟩ := isUpdated.mpr newQuery
  obtain ⟨compiled, pages, isCompiled, -, members, rfl, replaced⟩ := updated paths rfl
  have isNew : queryText? compiled Session.sitePath = some "new" := by
    rw [← Option.some.inj isCompiled]
    decide +kernel
  have cleared : "/a" ∈ pages.map (·.path) :=
    List.mem_map.mpr ⟨⟨"/a", Session.sitePath⟩, (members _).mpr (by decide +kernel), rfl⟩
  have elsewhere : ∀ page ∈ plainSite.store.state.pages,
      page.component.same Session.sitePath = true → page.path ≠ "/c" := by decide +kernel
  have kept : "/c" ∉ pages.map (·.path) := by
    intro member
    obtain ⟨page, isPage, isPath⟩ := List.mem_map.mp member
    have ofSite := (members page).mp isPage
    exact elsewhere page ofSite.1 ofSite.2 isPath
  refine ⟨ordered, free, after, _, (ends after _).mpr ⟨rfl, rfl⟩, cleared, kept, ?_, ?_, ?_⟩
  · rw [replaced.kept, if_pos (Path.same_refl _), isNew]
  · rw [replaced.dependencies, if_pos cleared]
  · rw [replaced.dependencies, if_neg kept]
    decide +kernel

end SourceChanged

end SiteQuery.Watch
