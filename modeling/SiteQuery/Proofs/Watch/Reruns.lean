import SiteQuery.Proofs.Watch.Updates

/-!
Which query a page was last run with.

A change that keeps a new query runs all pages of its component with it. A registration keeps the query that it finds
and runs no page, so that pages stay behind where a change has come before it: `outdated_page`. A component without
such a late registration has none of them: `rerun_of_run`.
-/

namespace SiteQuery.Watch

namespace Page

variable {page other : Page} {pages : List Page}

theorem eq_or_mem_of_mem_insert (member : other ∈ page.insert pages) : other = page ∨ other ∈ pages := by
  induction pages with
  | nil => exact .inl (List.mem_singleton.mp member)
  | cons first rest ih =>
    unfold insert at member
    split at member
    · exact List.mem_cons.mp member
    · split at member
      · exact (List.mem_cons.mp member).imp_right (List.mem_cons_of_mem _)
      · rcases List.mem_cons.mp member with here | inRest
        · exact .inr (here ▸ List.mem_cons_self)
        · exact (ih inRest).imp_right (List.mem_cons_of_mem _)

/-- A page may be replaced, but its path stays. -/
theorem exists_mem_insert (page : Page) (member : other ∈ pages) :
    ∃ kept ∈ page.insert pages, kept.path = other.path := by
  induction pages with
  | nil => exact absurd member List.not_mem_nil
  | cons first rest ih =>
    unfold insert
    split
    · exact ⟨other, List.mem_cons_of_mem _ member, rfl⟩
    · split
      · rename_i same
        rcases List.mem_cons.mp member with rfl | inRest
        · exact ⟨page, List.mem_cons_self, same⟩
        · exact ⟨other, List.mem_cons_of_mem _ inRest, rfl⟩
      · rcases List.mem_cons.mp member with rfl | inRest
        · exact ⟨other, List.mem_cons_self, rfl⟩
        · obtain ⟨kept, inRest, same⟩ := ih inRest
          exact ⟨kept, List.mem_cons_of_mem _ inRest, same⟩

end Page

namespace Watcher

def kept? (watcher : Watcher) (path : Path) : Option String := (watcher.components.get? path).bind (·.query?)

/-- All runs of pages so far, in their order. -/
def runs (watcher : Watcher) : List (Page × PageComponent) :=
  watcher.effects.filterMap fun
    | .ran page component => some (page, component)
    | .dispatched _ => none

/-- What a page was last run with. -/
def lastRun? (watcher : Watcher) (page : String) : Option PageComponent :=
  (watcher.runs.reverse.find? (·.1.path == page)).map (·.2)

/-- Some page of the component was run. -/
def hasRun (watcher : Watcher) (component : Path) : Bool := watcher.runs.any (·.1.component.same component)

/-- A run with what is kept for the component now. -/
def IsCurrent (watcher : Watcher) (component : Path) (run : PageComponent) : Prop :=
  run.path.same component = true ∧ run.query? = watcher.kept? component

/-- A page with its component, and there is a page at its path in the store. -/
def Has (watcher : Watcher) (assignment : String → Path) (page : Page) : Prop :=
  page.component.same (assignment page.path) = true ∧ ∃ other ∈ watcher.store.state.pages, other.path = page.path

structure Assigned (watcher : Watcher) (assignment : String → Path) : Prop where
  listed : ∀ page ∈ watcher.store.state.pages, page.component.same (assignment page.path) = true
  ran : ∀ run ∈ watcher.runs, watcher.Has assignment run.1

variable {watcher changed : Watcher} {assignment : String → Path}

theorem kept?_congr {a b : Path} (same : a.same b = true) : watcher.kept? a = watcher.kept? b :=
  (watcher.ledger []).kept?_congr same

theorem kept?_keep (path : Path) (query? : Option String) (other : Path) :
    (watcher.keep ⟨path, query?⟩).kept? other = if path.same other then query? else watcher.kept? other :=
  (watcher.ledger []).kept?_insert path query? other

theorem runs_dispatch (action : Action) : (watcher.dispatch action).runs = watcher.runs := by
  simp [runs, dispatch]

theorem runs_runPage (page : Page) (component : PageComponent) :
    (watcher.runPage page component).runs = watcher.runs ++ [(page, component)] := by
  simp [runs, runPage]

theorem lastRun?_congr (same : changed.runs = watcher.runs) (page : String) :
    changed.lastRun? page = watcher.lastRun? page := by
  simp only [lastRun?, same]

theorem lastRun?_runPage (page : Page) (component : PageComponent) (other : String) :
    (watcher.runPage page component).lastRun? other =
      if page.path = other then some component else watcher.lastRun? other := by
  simp only [lastRun?, runs_runPage, List.reverse_append, List.reverse_singleton, List.singleton_append,
    List.find?_cons]
  by_cases here : page.path = other
  · simp [here]
  · simp [here, beq_eq_false_iff_ne.mpr here]

theorem exists_run_of_lastRun? {page : String} {component : PageComponent}
    (last : watcher.lastRun? page = some component) : ∃ run ∈ watcher.runs, run.1.path = page := by
  obtain ⟨run, found, rfl⟩ := Option.map_eq_some_iff.mp last
  have member := List.mem_of_find?_eq_some found
  have here := List.find?_some found
  exact ⟨run, List.mem_reverse.mp member, by simpa using here⟩

theorem Has.grow {page : Page} (has : watcher.Has assignment page)
    (grows : ∀ old ∈ watcher.store.state.pages, ∃ new ∈ changed.store.state.pages, new.path = old.path) :
    changed.Has assignment page := by
  obtain ⟨assigned, old, member, same⟩ := has
  obtain ⟨new, newMember, alsoSame⟩ := grows old member
  exact ⟨assigned, new, newMember, alsoSame.trans same⟩

theorem hasRun_of_lastRun? (assigned : watcher.Assigned assignment) {page : String} {component : PageComponent}
    (last : watcher.lastRun? page = some component) : watcher.hasRun (assignment page) = true := by
  obtain ⟨run, member, rfl⟩ := exists_run_of_lastRun? last
  exact List.any_eq_true.mpr ⟨run, member, (assigned.ran run member).1⟩

end Watcher

/-- What a reaction has still to do that pages depend on. -/
inductive Duty where
  | none
  /-- A registration keeps what it has found. -/
  | register
  | all (component : PageComponent)
  | rest (component : PageComponent) (pages : List Page)
deriving DecidableEq

namespace Duty

def component? : Duty → Option PageComponent
  | none | register => Option.none
  | all component | rest component _ => some component

def pages : Duty → List Page
  | rest _ pages => pages
  | _ => []

def Covers : Duty → String → Prop
  | none, _ | register, _ => False
  | all _, _ => True
  | rest _ pages, page => ∃ other ∈ pages, other.path = page

/-- Pages are run with what is kept, and they are those of the component. -/
structure IsSound (duty : Duty) (component : Path) (watcher : Watcher) (assignment : String → Path) : Prop where
  given : ∀ given, duty.component? = some given → given = ⟨component, watcher.kept? component⟩
  pages : ∀ page ∈ duty.pages, page.component.same component = true ∧ watcher.Has assignment page

/-- One step of a reaction for a component, as far as pages depend on it. -/
inductive Step (component : Path) : Watcher → Duty → Watcher → Duty → Prop
  | stay {watcher duty changed} (samePages : changed.store.state.pages = watcher.store.state.pages)
      (sameRuns : changed.runs = watcher.runs) (sameKept : ∀ path, changed.kept? path = watcher.kept? path) :
      Step component watcher duty changed duty
  | find {watcher} : Step component watcher none watcher register
  | register {watcher query?} : Step component watcher register (watcher.keep ⟨component, query?⟩) none
  | change {watcher query?} :
      Step component watcher none (watcher.keep ⟨component, query?⟩) (all ⟨component, query?⟩)
  | listPages {watcher given} :
      Step component watcher (all given) watcher (rest given (watcher.store.state.pagesFor component))
  | run {watcher given page pages} :
      Step component watcher (rest given (page :: pages)) (watcher.runPage page given) (rest given pages)
  | finish {watcher given} : Step component watcher (rest given []) watcher none

end Duty

def Reaction.duty : Reaction → Duty
  | registration _ (.keep _) => .register
  | change _ (.publish component) | change _ (.findPages component) => .all component
  | change _ (.clear component pages) | change _ (.run component _ pages) => .rest component pages
  | _ => .none

namespace Reaction

variable {result : PassResult} {watcher changed : Watcher}

theorem duty_step_registration {component : Path} {next after : Registration}
    (step : next.step component result watcher = some (changed, after)) :
    Duty.Step component watcher (registration component next).duty changed (registration component after).duty := by
  cases next with
  | claim =>
    simp only [Registration.step] at step
    cases found : watcher.components.get? component with
    | some old =>
      simp only [found, Option.some.injEq, Prod.mk.injEq] at step
      obtain ⟨rfl, rfl⟩ := step
      exact .stay rfl rfl fun _ => rfl
    | none =>
      simp only [found, Option.some.injEq, Prod.mk.injEq] at step
      obtain ⟨rfl, rfl⟩ := step
      refine .stay rfl rfl fun path => ?_
      rw [Watcher.kept?_keep]
      by_cases same : component.same path = true
      · rw [if_pos same, ← Watcher.kept?_congr same, Watcher.kept?, found]
        rfl
      · rw [if_neg same]
  | lock =>
    simp only [Registration.step, Option.ite_none_left_eq_some, Option.some.injEq, Prod.mk.injEq] at step
    obtain ⟨_, rfl, rfl⟩ := step
    exact .stay rfl rfl fun _ => rfl
  | endPass =>
    cases result with
    | some compiled => cases step; exact .find
    | none => cases step; exact .stay rfl rfl fun _ => rfl
  | checkStage =>
    simp only [Registration.step, Option.some.injEq, Prod.mk.injEq] at step
    obtain ⟨rfl, rfl⟩ := step
    by_cases finished : watcher.isFinished = true <;> simp only [finished] <;> exact .stay rfl rfl fun _ => rfl
  | done isNew => simp [Registration.step] at step
  | keep query? => cases step; exact .register
  | announce => cases step; exact .stay rfl (Watcher.runs_dispatch _) fun _ => rfl
  | publish query? => cases step; exact .stay rfl (Watcher.runs_dispatch _) fun _ => rfl
  | compile => cases step; exact .stay rfl rfl fun _ => rfl
  | armTimer => cases step; exact .stay rfl rfl fun _ => rfl
  | unlock => cases step; exact .stay rfl rfl fun _ => rfl

theorem duty_step_change {path : Path} {next after : Change}
    (step : next.step path result watcher = some (changed, after)) :
    Duty.Step path watcher (change path next).duty changed (change path after).duty := by
  cases next with
  | look =>
    simp only [Change.step] at step
    cases found : watcher.components.get? path with
    | some old =>
      simp only [found, Option.some.injEq, Prod.mk.injEq] at step
      obtain ⟨rfl, rfl⟩ := step
      exact .stay rfl rfl fun _ => rfl
    | none =>
      simp only [found, Option.some.injEq, Prod.mk.injEq] at step
      obtain ⟨rfl, rfl⟩ := step
      exact .stay rfl rfl fun _ => rfl
  | lock =>
    simp only [Change.step, Option.ite_none_left_eq_some, Option.some.injEq, Prod.mk.injEq] at step
    obtain ⟨_, rfl, rfl⟩ := step
    exact .stay rfl rfl fun _ => rfl
  | endPass =>
    cases result with
    | some compiled => cases step; exact .stay rfl rfl fun _ => rfl
    | none => cases step; exact .stay rfl rfl fun _ => rfl
  | compare query? =>
    simp only [Change.step, Option.some.injEq, Prod.mk.injEq] at step
    obtain ⟨rfl, rfl⟩ := step
    by_cases same : query? = (watcher.components.get? path).bind (·.query?)
    · rw [if_pos same]
      exact .stay rfl rfl fun _ => rfl
    · rw [if_neg same]
      exact .stay rfl rfl fun _ => rfl
  | run component paths pages =>
    cases pages with
    | nil => cases step; exact .finish
    | cons page rest => cases step; exact .run
  | done outcome => simp [Change.step] at step
  | keep query? => cases step; exact .change
  | findPages component => cases step; exact .listPages
  | publish component => cases step; exact .stay rfl (Watcher.runs_dispatch _) fun _ => rfl
  | clear component pages => cases step; exact .stay rfl (Watcher.runs_dispatch _) fun _ => rfl
  | compile => cases step; exact .stay rfl rfl fun _ => rfl
  | unlock outcome => cases step; exact .stay rfl rfl fun _ => rfl

theorem duty_step {reaction after : Reaction} (step : reaction.step result watcher = some (changed, after)) :
    Duty.Step reaction.component watcher reaction.duty changed after.duty := by
  cases reaction with
  | registration component next =>
    simp only [Reaction.step, Option.map_eq_some_iff, Prod.mk.injEq, Prod.exists] at step
    obtain ⟨_, _, moved, rfl, rfl⟩ := step
    exact duty_step_registration moved
  | change path next =>
    simp only [Reaction.step, Option.map_eq_some_iff, Prod.mk.injEq, Prod.exists] at step
    obtain ⟨_, _, moved, rfl, rfl⟩ := step
    exact duty_step_change moved

theorem duty_of_isDone {reaction : Reaction} (isDone : reaction.isDone = true) : reaction.duty = .none := by
  cases reaction with
  | registration component next =>
    cases next with
    | done isNew => rfl
    | _ => exact absurd isDone nofun
  | change path next =>
    cases next with
    | done outcome => rfl
    | _ => exact absurd isDone nofun

/-- Who has pages to run holds the lock of the component. -/
theorem isHolding_of_duty {reaction : Reaction} {given : PageComponent} (due : reaction.duty.component? = some given) :
    reaction.stage.isHolding = true := by
  cases reaction with
  | registration component next => cases next <;> exact absurd due nofun
  | change path next =>
    cases next with
    | publish | findPages | clear | run => rfl
    | _ => exact absurd due nofun

end Reaction

namespace Duty

variable {component : Path} {watcher changed : Watcher} {duty next : Duty} {assignment : String → Path}

/-- What a reaction has still to do is not touched by others that leave its component alone. -/
theorem IsSound.frame (sound : duty.IsSound component watcher assignment)
    (grows : ∀ old ∈ watcher.store.state.pages, ∃ new ∈ changed.store.state.pages, new.path = old.path)
    (sameKept : ∀ {given}, duty.component? = some given → changed.kept? component = watcher.kept? component) :
    duty.IsSound component changed assignment where
  given given due := by
    rw [sameKept due, ← sound.given given due]
  pages page member := ⟨(sound.pages page member).1, (sound.pages page member).2.grow grows⟩

namespace Step

theorem samePages (step : Step component watcher duty changed next) :
    changed.store.state.pages = watcher.store.state.pages := by
  cases step with
  | stay samePages => exact samePages
  | _ => rfl

theorem grows (step : Step component watcher duty changed next) :
    ∀ old ∈ watcher.store.state.pages, ∃ new ∈ changed.store.state.pages, new.path = old.path := by
  intro old member
  exact ⟨old, step.samePages ▸ member, rfl⟩

theorem assigned (step : Step component watcher duty changed next) (assigned : watcher.Assigned assignment)
    (sound : duty.IsSound component watcher assignment) : changed.Assigned assignment where
  listed := by
    rw [step.samePages]
    exact assigned.listed
  ran := by
    intro run member
    cases step with
    | stay samePages sameRuns =>
      rw [sameRuns] at member
      exact (assigned.ran run member).grow fun old inPages => ⟨old, samePages ▸ inPages, rfl⟩
    | @run given page pages =>
      rw [Watcher.runs_runPage] at member
      rcases List.mem_append.mp member with old | new
      · exact assigned.ran run old
      · cases List.mem_singleton.mp new
        exact (sound.pages page List.mem_cons_self).2
    | _ => exact assigned.ran run member

theorem isSound (step : Step component watcher duty changed next) (assigned : watcher.Assigned assignment)
    (sound : duty.IsSound component watcher assignment) : next.IsSound component changed assignment := by
  cases step with
  | stay samePages _ sameKept =>
    exact sound.frame (fun old member => ⟨old, samePages ▸ member, rfl⟩) fun _ => sameKept component
  | find => exact ⟨nofun, nofun⟩
  | register => exact ⟨nofun, nofun⟩
  | finish => exact ⟨nofun, nofun⟩
  | change =>
    refine ⟨?_, nofun⟩
    rintro given ⟨⟩
    rw [Watcher.kept?_keep, if_pos (Path.same_refl component)]
  | listPages =>
    refine ⟨sound.given, ?_⟩
    intro page member
    obtain ⟨listed, same⟩ := List.mem_filter.mp member
    exact ⟨same, assigned.listed page listed, page, listed, rfl⟩
  | run => exact ⟨sound.given, fun page member => sound.pages page (List.mem_cons_of_mem _ member)⟩

/-- A page stays up to date, or its component has a reaction that will run it; only a registration that keeps a query
after a run could break that. -/
theorem upToDate (step : Step component watcher duty changed next) (assigned : watcher.Assigned assignment)
    (sound : duty.IsSound component watcher assignment) {page : String}
    (timely : duty = .register → component.same (assignment page) = true → watcher.hasRun (assignment page) = false)
    {others : Prop}
    (before : ∀ run, watcher.lastRun? page = some run → watcher.IsCurrent (assignment page) run ∨
      (component.same (assignment page) = true ∧ duty.Covers page) ∨ others)
    (run : PageComponent) (last : changed.lastRun? page = some run) :
    changed.IsCurrent (assignment page) run ∨ (component.same (assignment page) = true ∧ next.Covers page) ∨ others := by
  cases step with
  | stay _ sameRuns sameKept =>
    rw [Watcher.lastRun?_congr sameRuns] at last
    rw [Watcher.IsCurrent, sameKept]
    exact before run last
  | find => exact before run last
  | @register query? =>
    by_cases same : component.same (assignment page) = true
    · have notRun := timely rfl same
      rw [Watcher.hasRun_of_lastRun? assigned last] at notRun
      exact absurd notRun.symm Bool.false_ne_true
    · rw [Watcher.IsCurrent, Watcher.kept?_keep, if_neg same]
      exact before run last
  | @change query? =>
    by_cases same : component.same (assignment page) = true
    · exact .inr (.inl ⟨same, trivial⟩)
    · rw [Watcher.IsCurrent, Watcher.kept?_keep, if_neg same]
      exact (before run last).imp_right (Or.imp_left fun here => absurd here.1 same)
  | listPages =>
    refine (before run last).imp_right (Or.imp_left ?_)
    rintro ⟨same, -⟩
    obtain ⟨old, member, rfl⟩ := Watcher.exists_run_of_lastRun? last
    obtain ⟨-, listed, inPages, samePath⟩ := assigned.ran old member
    have here := assigned.listed listed inPages
    rw [samePath, ← Path.same_congr_right same] at here
    exact ⟨same, listed, List.mem_filter.mpr ⟨inPages, here⟩, samePath⟩
  | @run given first pages =>
    rw [Watcher.lastRun?_runPage] at last
    by_cases here : first.path = page
    · rw [if_pos here, Option.some.injEq] at last
      subst here last
      left
      obtain ⟨ofComponent, ofAssignment, -⟩ := sound.pages first List.mem_cons_self
      rw [Path.same_congr_left ofComponent] at ofAssignment
      rw [sound.given given rfl]
      exact ⟨ofAssignment, Watcher.kept?_congr ofAssignment⟩
    · rw [if_neg here] at last
      refine (before run last).imp_right (Or.imp_left ?_)
      rintro ⟨same, other, member, samePath⟩
      rcases List.mem_cons.mp member with rfl | inPages
      · exact absurd samePath here
      · exact ⟨same, other, inPages, samePath⟩
  | finish =>
    refine (before run last).imp_right (Or.imp_left ?_)
    rintro ⟨-, other, member, -⟩
    exact absurd member List.not_mem_nil

end Step

end Duty

namespace Watcher

/-- Pages may come, each with its component; nothing is kept or run. -/
structure Receives (watcher changed : Watcher) (assignment : String → Path) : Prop where
  listed : ∀ page ∈ changed.store.state.pages, page.component.same (assignment page.path) = true
  grows : ∀ old ∈ watcher.store.state.pages, ∃ new ∈ changed.store.state.pages, new.path = old.path
  sameRuns : changed.runs = watcher.runs
  sameKept : ∀ path, changed.kept? path = watcher.kept? path

variable {watcher changed : Watcher} {assignment : String → Path}

theorem Receives.assigned (receives : watcher.Receives changed assignment) (assigned : watcher.Assigned assignment) :
    changed.Assigned assignment where
  listed := receives.listed
  ran := by
    intro run member
    rw [receives.sameRuns] at member
    exact (assigned.ran run member).grow receives.grows

theorem receives_of_samePages (assigned : watcher.Assigned assignment)
    (samePages : changed.store.state.pages = watcher.store.state.pages) (sameRuns : changed.runs = watcher.runs)
    (sameKept : ∀ path, changed.kept? path = watcher.kept? path) : watcher.Receives changed assignment where
  listed := by
    rw [samePages]
    exact assigned.listed
  grows old member := ⟨old, samePages ▸ member, rfl⟩
  sameRuns := sameRuns
  sameKept := sameKept

theorem receives_page (assigned : watcher.Assigned assignment) {page : Page}
    (given : page.component.same (assignment page.path) = true) :
    watcher.Receives { watcher with store := watcher.store.dispatch (.upsertPage page) } assignment where
  listed other member := by
    rcases Page.eq_or_mem_of_mem_insert member with rfl | old
    · exact given
    · exact assigned.listed other old
  grows _ member := Page.exists_mem_insert page member
  sameRuns := rfl
  sameKept _ := rfl

theorem receives_elapse (assigned : watcher.Assigned assignment) (time : Nat) :
    watcher.Receives (Host.elapse time { watcher := watcher }).watcher assignment := by
  unfold Host.elapse
  rcases watcher.timer.elapse time with ⟨_ | ⟨due, _⟩, timer⟩
  · exact receives_of_samePages assigned rfl rfl fun _ => rfl
  · by_cases finished : watcher.isFinished = true
    · simp only [finishBootstrap, finished, if_true]
      exact receives_of_samePages assigned rfl rfl fun _ => rfl
    · simp only [finishBootstrap, finished]
      exact receives_of_samePages assigned rfl (runs_dispatch _) fun _ => rfl

end Watcher

theorem Turn.move_or_stays (turn : Turn) :
    (∃ index result, turn = .event (.move index result)) ∨ ∀ index result, turn ≠ .event (.move index result) := by
  cases turn with
  | event event =>
    rcases event.move_or_stays with ⟨index, result, rfl⟩ | stays
    · exact .inl ⟨index, result, rfl⟩
    · exact .inr fun index result same => stays index result (Turn.event.inj same)
  | setStage stage => exact .inr nofun

/-- A page that comes has the component that is assigned to it. -/
def Turn.Respects (assignment : String → Path) : Turn → Prop
  | .event (.dispatch (.upsertPage page)) => page.component.same (assignment page.path) = true
  | _ => True

namespace Session

/-- A registration keeps a query for the component, although pages of it were run before. -/
def isLate (session : Session) (component : Path) : Turn → Bool
  | .event (.move index _) => session.reactions[index]?.any fun reaction =>
      reaction.duty == .register && reaction.component.same component && session.watcher.hasRun component
  | _ => false

/-- No registration is late for the component. -/
def isTimely (component : Path) (session : Session) : List Turn → Bool
  | [] => true
  | turn :: rest => !session.isLate component turn && (session.turn turn).all fun next => isTimely component next rest

/-- What holds of pages, and of reactions that are to run some, along every run. -/
structure Tracked (session : Session) (assignment : String → Path) : Prop where
  consistent : Consistent session.ledger session.calls
  mirrored : Mirrored session.ledger session.calls
  assigned : session.watcher.Assigned assignment
  sound : ∀ reaction ∈ session.reactions, reaction.duty.IsSound reaction.component session.watcher assignment

/-- The page was last run with what is kept for its component, or a reaction is to run it yet. -/
def UpToDate (session : Session) (assignment : String → Path) (page : String) : Prop :=
  ∀ run, session.watcher.lastRun? page = some run → session.watcher.IsCurrent (assignment page) run ∨
    ∃ reaction ∈ session.reactions, reaction.component.same (assignment page) = true ∧ reaction.duty.Covers page

variable {session after : Session} {assignment : String → Path}

/-- Where no reaction goes on, some may begin, and pages may come. -/
theorem receives_turn {turn : Turn} (turned : session.turn turn = some after)
    (stays : ∀ index result, turn ≠ .event (.move index result)) (respects : turn.Respects assignment) (assigned : session.watcher.Assigned assignment) :
    session.watcher.Receives after.watcher assignment ∧ ∃ begun, after.reactions = session.reactions ++ begun ∧
      ∀ reaction ∈ begun, reaction.duty = .none := by
  cases turn with
  | setStage stage =>
    cases turned
    exact ⟨Watcher.receives_of_samePages assigned rfl rfl fun _ => rfl, [], by simp⟩
  | event event =>
    cases event with
    | register component =>
      cases turned
      refine ⟨Watcher.receives_of_samePages assigned rfl rfl fun _ => rfl, [.register component], rfl, ?_⟩
      simp [Reaction.register, Reaction.duty]
    | sourceChanged path =>
      cases turned
      refine ⟨Watcher.receives_of_samePages assigned rfl rfl fun _ => rfl, [.sourceChanged path], rfl, ?_⟩
      simp [Reaction.sourceChanged, Reaction.duty]
    | move index result => exact absurd rfl (stays index result)
    | dispatch action =>
      simp only [Session.turn, Session.step, Option.ite_none_right_eq_some, Option.some.injEq] at turned
      obtain ⟨foreign, rfl⟩ := turned
      refine ⟨?_, [], by simp⟩
      cases action with
      | upsertPage page => exact Watcher.receives_page assigned respects
      | addDependency | removeDependencies => exact Watcher.receives_of_samePages assigned rfl rfl fun _ => rfl
      | addComponent | setQuery | setStage => exact absurd foreign Bool.false_ne_true
    | elapse time =>
      cases turned
      exact ⟨Watcher.receives_elapse assigned time, [], by simp⟩

/-- The lock keeps all others from a component whose pages are to be run. -/
theorem kept?_others {reaction next other : Reaction} {others : List Reaction} {result : PassResult}
    {watcher : Watcher} (consistent : Consistent session.ledger ((reaction :: others).map Reaction.call))
    (stepped : reaction.step result session.watcher = some (watcher, next)) (member : other ∈ others)
    {given : PageComponent} (due : other.duty.component? = some given) :
    watcher.kept? other.component = session.watcher.kept? other.component := by
  have stageStep := (Reaction.stage_step session.passes stepped).2
  rcases stageStep.kept?_cases other.component with unchanged | ⟨query?, isFound, -, same, -⟩
  · exact unchanged
  · have holding : reaction.stage.isHolding = true := by
      rw [isFound]
      rfl
    have alsoHolding : other.call.stage.isHolding = true := Reaction.isHolding_of_duty due
    have apart := consistent.others_apart holding (List.mem_map_of_mem member) alsoHolding
    exact absurd (apart.symm.trans same) Bool.false_ne_true

theorem Tracked.turn {turn : Turn} (tracked : session.Tracked assignment) (turned : session.turn turn = some after)
    (respects : turn.Respects assignment) : after.Tracked assignment := by
  obtain ⟨consistent, mirrored⟩ := queries_turn ⟨tracked.consistent, tracked.mirrored⟩ turned
  rcases turn.move_or_stays with ⟨index, result, rfl⟩ | stays
  · obtain ⟨reaction, next, others, here, stepped, before, afterwards, -⟩ := exists_moved turned
    have dutyStep := Reaction.duty_step stepped
    have sound := tracked.sound reaction (List.mem_of_getElem? here)
    refine ⟨consistent, mirrored, dutyStep.assigned tracked.assigned sound, ?_⟩
    intro other member
    rcases List.mem_cons.mp (afterwards.mem_iff.mp member) with rfl | inOthers
    · rw [(Reaction.stage_step session.passes stepped).1]
      exact dutyStep.isSound tracked.assigned sound
    · have soundOther := tracked.sound other (before.mem_iff.mpr (List.mem_cons_of_mem _ inOthers))
      have kept {given : PageComponent} (due : other.duty.component? = some given) :=
        kept?_others (tracked.consistent.perm (before.map Reaction.call)) stepped inOthers due
      exact soundOther.frame dutyStep.grows kept
  · obtain ⟨receives, begun, reactions, idle⟩ := receives_turn turned stays respects tracked.assigned
    refine ⟨consistent, mirrored, receives.assigned tracked.assigned, ?_⟩
    intro reaction member
    rw [reactions] at member
    rcases List.mem_append.mp member with old | new
    · exact (tracked.sound reaction old).frame receives.grows fun _ => receives.sameKept _
    · rw [idle reaction new]
      exact ⟨nofun, nofun⟩

theorem UpToDate.turn {turn : Turn} {page : String} (upToDate : session.UpToDate assignment page)
    (tracked : session.Tracked assignment) (turned : session.turn turn = some after)
    (respects : turn.Respects assignment) (timely : session.isLate (assignment page) turn = false) :
    after.UpToDate assignment page := by
  intro run last
  rcases turn.move_or_stays with ⟨index, result, rfl⟩ | stays
  · obtain ⟨reaction, next, others, here, stepped, before, afterwards, -⟩ := exists_moved turned
    have sameComponent := (Reaction.stage_step session.passes stepped).1
    have sound := tracked.sound reaction (List.mem_of_getElem? here)
    have notLate : reaction.duty = .register → reaction.component.same (assignment page) = true →
        session.watcher.hasRun (assignment page) = false := by
      intro isRegister same
      simpa [isLate, here, isRegister, same] using timely
    have covered : ∀ run, session.watcher.lastRun? page = some run →
        session.watcher.IsCurrent (assignment page) run ∨
          (reaction.component.same (assignment page) = true ∧ reaction.duty.Covers page) ∨
          ∃ other ∈ others, other.component.same (assignment page) = true ∧ other.duty.Covers page := by
      intro run last
      refine (upToDate run last).imp_right ?_
      rintro ⟨other, member, covers⟩
      rcases List.mem_cons.mp (before.mem_iff.mp member) with rfl | inOthers
      · exact .inl covers
      · exact .inr ⟨other, inOthers, covers⟩
    have step := (Reaction.duty_step stepped).upToDate tracked.assigned sound notLate covered run last
    refine step.imp_right ?_
    rintro (⟨same, covers⟩ | ⟨other, inOthers, covers⟩)
    · exact ⟨next, afterwards.mem_iff.mpr List.mem_cons_self, sameComponent ▸ same, covers⟩
    · exact ⟨other, afterwards.mem_iff.mpr (List.mem_cons_of_mem _ inOthers), covers⟩
  · obtain ⟨receives, begun, reactions, -⟩ := receives_turn turned stays respects tracked.assigned
    rw [Watcher.lastRun?_congr receives.sameRuns] at last
    rw [Watcher.IsCurrent, receives.sameKept, reactions]
    refine (upToDate run last).imp_right ?_
    rintro ⟨reaction, member, covers⟩
    exact ⟨reaction, List.mem_append_left _ member, covers⟩

theorem upToDate_of_isTimely {turns : List Turn} {page : String} (ran : session.run turns = some after)
    (tracked : session.Tracked assignment) (respects : ∀ turn ∈ turns, turn.Respects assignment)
    (timely : isTimely (assignment page) session turns = true) (upToDate : session.UpToDate assignment page) :
    after.UpToDate assignment page := by
  induction turns generalizing session with
  | nil => exact Option.some.inj ran ▸ upToDate
  | cons turn rest ih =>
    simp only [run, List.foldlM_cons, Option.bind_eq_bind, Option.bind_eq_some_iff] at ran
    obtain ⟨next, turned, others⟩ := ran
    simp only [isTimely, turned, Option.all_some, Bool.and_eq_true, Bool.not_eq_true'] at timely
    have first := respects turn List.mem_cons_self
    apply ih others (tracked.turn turned first)
    · exact fun other member => respects other (List.mem_cons_of_mem _ member)
    · exact timely.2
    · exact upToDate.turn tracked turned first timely.1

theorem tracked_ofStore {store : Store} (unset : store.state.components = [])
    (listed : ∀ page ∈ store.state.pages, page.component.same (assignment page.path) = true) (delay : Nat) :
    (ofStore store delay).Tracked assignment where
  consistent := consistent_ofStore store delay
  mirrored := mirrored_ofStore unset delay
  assigned := ⟨listed, nofun⟩
  sound := nofun

/-- Where no registration was late and no call is under way for the component of a page, the page was last run with
the query that the store has for the component. -/
theorem rerun_of_run {store : Store} (unset : store.state.components = [])
    (listed : ∀ page ∈ store.state.pages, page.component.same (assignment page.path) = true) {delay : Nat}
    {turns : List Turn} (respects : ∀ turn ∈ turns, turn.Respects assignment)
    (ran : (ofStore store delay).run turns = some session) {page : String}
    (timely : isTimely (assignment page) (ofStore store delay) turns = true) (idle : session.IsIdle (assignment page))
    {run : PageComponent} (last : session.watcher.lastRun? page = some run) :
    run.path.same (assignment page) = true ∧
      run.query? = (session.watcher.store.state.component? (assignment page)).bind (·.query?) := by
  have initially := tracked_ofStore unset listed delay
  have upToDate := upToDate_of_isTimely ran initially respects timely nofun
  have kept : ∀ turn ∈ turns, ∀ session after : Session, session.Tracked assignment → session.turn turn = some after →
      after.Tracked assignment :=
    fun turn member _ _ tracked turned => tracked.turn turned (respects turn member)
  have mirrored := (run_invariant (·.Tracked assignment) kept ran initially).mirrored
  have published : session.ledger.published? (assignment page) = session.ledger.kept? (assignment page) := by
    apply mirrored
    intro call member same query? isKept
    rw [idle.stage member same] at isKept
    cases isKept
  rcases upToDate run last with ⟨samePath, current⟩ | ⟨reaction, member, same, covers⟩
  · exact ⟨samePath, current.trans published.symm⟩
  · rw [Reaction.duty_of_isDone (idle reaction member same)] at covers
    exact covers.elim

def homePage : Page := ⟨"/", sitePath⟩

/-- One component renders all pages. -/
def siteAssignment (_ : String) : Path := sitePath

/-- A page comes, its component is registered, and changes after that. -/
def edited : List Turn :=
  .event (.dispatch (.upsertPage homePage)) :: .event (.register sitePath) :: goOn 0 10 (oneQuery sitePath "first")
    ++ .event (.sourceChanged sitePath) :: goOn 1 12 (oneQuery sitePath "second")

theorem rerun_of_edited : ∃ session, (ofStore {} 100).run edited = some session ∧
    session.IsIdle (siteAssignment homePage.path) ∧
    session.watcher.lastRun? homePage.path = some ⟨sitePath, some "second"⟩ ∧
    some "second" = (session.watcher.store.state.component? (siteAssignment homePage.path)).bind (·.query?) := by
  have unlisted : ∀ page ∈ ({} : Store).state.pages, page.component.same (siteAssignment page.path) = true :=
    fun _ member => absurd member List.not_mem_nil
  have respects : ∀ turn ∈ edited, turn.Respects siteAssignment := by
    intro turn member
    simp only [edited, goOn, List.cons_append, List.mem_cons, List.mem_append, List.mem_replicate] at member
    rcases member with rfl | rfl | ⟨_, rfl⟩ | rfl | ⟨_, rfl⟩
    · exact Path.same_refl sitePath
    all_goals trivial
  have timely : isTimely (siteAssignment homePage.path) (ofStore {} 100) edited = true := by decide +kernel
  have atEnd : ∃ session ∈ (ofStore {} 100).run edited, session.IsIdle (siteAssignment homePage.path) ∧
      session.watcher.lastRun? homePage.path = some ⟨sitePath, some "second"⟩ := by decide +kernel
  obtain ⟨session, ran, idle, last⟩ := atEnd
  have reran := rerun_of_run rfl unlisted respects ran timely idle last
  exact ⟨session, ran, idle, last, reran.2⟩

/-- A change takes the lock between the first step of a registration and its second, and runs the page; the
registration finds another query after that. -/
def outrun : List Turn :=
  .event (.dispatch (.upsertPage homePage)) :: .event (.register sitePath) :: goOn 0 1 none
    ++ .event (.sourceChanged sitePath) :: goOn 1 12 (oneQuery sitePath "first")
    ++ goOn 0 9 (oneQuery sitePath "second")

theorem outdated_page : ∃ session ∈ (ofStore {} 100).run outrun,
    (∀ reaction ∈ session.reactions, reaction.isDone = true) ∧
    session.watcher.lastRun? homePage.path = some ⟨homePage.component, some "first"⟩ ∧
    (session.watcher.store.state.component? homePage.component).bind (·.query?) = some "second" := by
  decide +kernel

end Session

end SiteQuery.Watch
