import SiteQuery.Proofs.Watch.Components

/-!
What the steps of a reaction do to the queries that are kept.

Both kinds of reaction go through the same stages as far as queries are concerned: they come to know their
component, wait for its lock, compile, keep and publish what was found, and give the lock back.
`Reaction.stage_step` tells everything that one step can do there.
-/

namespace SiteQuery.Watch

open Compilation

/-- A pass of the compiler that was made for a component; without a result it is under way. -/
structure Pass where
  component : Path
  serial : Nat
  result? : Option PassResult

/-- All that is known about queries: what the watcher keeps, what the store has, and the passes, the last one
first. -/
structure Ledger where
  components : ComponentMap
  published : List PageComponent
  locked : List Path
  passes : List Pass

namespace Pass

/-- The queries of a pass that has succeeded. -/
def compiled? (pass : Pass) : Option CompiledQueries := pass.result?.join

/-- The last pass for the component ends. -/
def finish (component : Path) (result : PassResult) : List Pass → List Pass
  | [] => []
  | pass :: rest =>
    if pass.component.same component then { pass with result? := some result } :: rest
    else pass :: finish component result rest

/-- The last pass for a component. -/
def last? (component : Path) (passes : List Pass) : Option Pass := passes.find? (·.component.same component)

/-- What the last pass for a component has given, of those that have succeeded. -/
def lastCompiled? (component : Path) (passes : List Pass) : Option CompiledQueries :=
  passes.findSome? fun pass => if pass.component.same component then pass.compiled? else none

end Pass

namespace Ledger

def isKnown (ledger : Ledger) (path : Path) : Bool := (ledger.components.get? path).isSome

def isLocked (ledger : Ledger) (path : Path) : Bool := ledger.locked.any (·.same path)

/-- The query that the watcher keeps. -/
def kept? (ledger : Ledger) (path : Path) : Option String := (ledger.components.get? path).bind (·.query?)

/-- The query that the store has. -/
def published? (ledger : Ledger) (path : Path) : Option String := PageComponent.queryOf? ledger.published path

/-- The query that was found by the last pass for the component that has succeeded. -/
def lastFound? (ledger : Ledger) (path : Path) : Option String :=
  (Pass.lastCompiled? path ledger.passes).bind (queryText? · path)

end Ledger

inductive Stage where
  /-- A registration that has not seen yet whether the component is known. -/
  | unseen
  /-- A change whose path has not been looked up yet. -/
  | looking
  | waiting
  | ready
  | compiling
  | found (query? : Option String)
  | kept (query? : Option String)
  | settled
  | ended
deriving DecidableEq

namespace Stage

/-- From the lock on, up to its end. -/
def isHolding : Stage → Bool
  | ready | compiling | found _ | kept _ | settled => true
  | unseen | looking | waiting | ended => false

/-- From the look-up of the component on, up to the end. -/
def hasSeen : Stage → Bool
  | unseen | looking | ended => false
  | _ => true

/-- Where a pass leads that ends with a result. -/
def ofResult (component : Path) : PassResult → Stage
  | some compiled => .found (queryText? compiled component)
  | none => .settled

/-- One step of a reaction for a component, with the ledger before and after it. -/
inductive Step (component : Path) (result : PassResult) : Ledger → Stage → Ledger → Stage → Prop
  | again {ledger} (known : ledger.isKnown component = true) : Step component result ledger .unseen ledger .ended
  | claim {ledger} (unknown : ledger.isKnown component = false) :
      Step component result ledger .unseen
        { ledger with components := ledger.components.insert component ⟨component, none⟩ } .waiting
  | untracked {ledger} (unknown : ledger.isKnown component = false) :
      Step component result ledger .looking ledger .ended
  | tracked {ledger} (known : ledger.isKnown component = true) :
      Step component result ledger .looking ledger .waiting
  | announce {ledger} :
      Step component result ledger .waiting
        { ledger with published := PageComponent.insertMissing component ledger.published } .waiting
  | lock {ledger} (isFree : ledger.isLocked component = false) :
      Step component result ledger .waiting { ledger with locked := component :: ledger.locked } .ready
  | compile {ledger} :
      Step component result ledger .ready
        { ledger with passes := ⟨component, ledger.passes.length, none⟩ :: ledger.passes } .compiling
  | endPass {ledger} :
      Step component result ledger .compiling
        { ledger with passes := Pass.finish component result ledger.passes } (ofResult component result)
  | differ {ledger query?} : Step component result ledger (.found query?) ledger (.found query?)
  | agree {ledger query?} (same : ledger.kept? component = query?) :
      Step component result ledger (.found query?) ledger .settled
  | keep {ledger query?} :
      Step component result ledger (.found query?)
        { ledger with components := ledger.components.insert component ⟨component, query?⟩ } (.kept query?)
  | publish {ledger query?} :
      Step component result ledger (.kept query?)
        { ledger with published := PageComponent.setQuery component query? ledger.published } .settled
  | settle {ledger} : Step component result ledger .settled ledger .settled
  | unlock {ledger} :
      Step component result ledger .settled
        { ledger with locked := ledger.locked.filter (!·.same component) } .ended

end Stage

def Registration.stage : Registration → Stage
  | claim => .unseen
  | announce | lock => .waiting
  | compile => .ready
  | endPass => .compiling
  | keep query? => .found query?
  | publish query? => .kept query?
  | checkStage | armTimer | unlock => .settled
  | done _ => .ended

def Change.stage : Change → Stage
  | look => .looking
  | lock => .waiting
  | compile => .ready
  | endPass => .compiling
  | compare query? | keep query? => .found query?
  | publish component => .kept component.query?
  | findPages _ | clear _ _ | run _ _ _ | unlock _ => .settled
  | done _ => .ended

namespace Reaction

def component : Reaction → Path
  | registration component _ => component
  | change path _ => path

def stage : Reaction → Stage
  | registration _ next => next.stage
  | change _ next => next.stage

theorem stage_of_isDone {reaction : Reaction} (isDone : reaction.isDone = true) : reaction.stage = .ended := by
  cases reaction with
  | registration component next =>
    cases next with
    | done isNew => rfl
    | _ => exact absurd isDone nofun
  | change path next =>
    cases next with
    | done outcome => rfl
    | _ => exact absurd isDone nofun

theorem stage_of_isCompiling {reaction : Reaction} (compiling : reaction.isCompiling = true) :
    reaction.stage = .compiling := by
  cases reaction with
  | registration component next =>
    cases next with
    | endPass => rfl
    | _ => exact absurd compiling nofun
  | change path next =>
    cases next with
    | endPass => rfl
    | _ => exact absurd compiling nofun

/-- The passes after a step from here on. -/
def record (reaction : Reaction) (result : PassResult) (passes : List Pass) : List Pass :=
  match reaction.stage with
  | .ready => ⟨reaction.component, passes.length, none⟩ :: passes
  | .compiling => Pass.finish reaction.component result passes
  | _ => passes

end Reaction

/-- The queries of a watcher, with the passes so far. -/
def Watcher.ledger (watcher : Watcher) (passes : List Pass) : Ledger where
  components := watcher.components
  published := watcher.store.state.components
  locked := watcher.locked
  passes := passes

namespace Reaction

theorem stage_step_registration {component : Path} {next after : Registration} {result : PassResult}
    {watcher changed : Watcher} {passes : List Pass} (step : next.step component result watcher = some (changed, after)) :
    Stage.Step component result (watcher.ledger passes) next.stage
      (changed.ledger ((registration component next).record result passes)) after.stage := by
  cases next with
  | claim =>
    simp only [Registration.step] at step
    cases found : watcher.components.get? component with
    | some old =>
      simp only [found, Option.some.injEq, Prod.mk.injEq] at step
      obtain ⟨rfl, rfl⟩ := step
      exact .again (by simp [Ledger.isKnown, Watcher.ledger, found])
    | none =>
      simp only [found, Option.some.injEq, Prod.mk.injEq] at step
      obtain ⟨rfl, rfl⟩ := step
      exact .claim (by simp [Ledger.isKnown, Watcher.ledger, found])
  | lock =>
    simp only [Registration.step, Option.ite_none_left_eq_some, Option.some.injEq, Prod.mk.injEq] at step
    obtain ⟨free, rfl, rfl⟩ := step
    exact .lock (by simpa [Ledger.isLocked, Watcher.ledger, Watcher.isLocked] using free)
  | endPass =>
    cases result with
    | some compiled =>
      simp only [Registration.step, Option.some.injEq, Prod.mk.injEq] at step
      obtain ⟨rfl, rfl⟩ := step
      exact .endPass
    | none =>
      simp only [Registration.step, Option.some.injEq, Prod.mk.injEq] at step
      obtain ⟨rfl, rfl⟩ := step
      exact .endPass
  | checkStage =>
    simp only [Registration.step, Option.some.injEq, Prod.mk.injEq] at step
    obtain ⟨rfl, rfl⟩ := step
    by_cases finished : watcher.isFinished = true <;> simp only [finished] <;> exact .settle
  | done isNew => simp [Registration.step] at step
  | announce => cases step; exact .announce
  | compile => cases step; exact .compile
  | keep query? => cases step; exact .keep
  | publish query? => cases step; exact .publish
  | armTimer => cases step; exact .settle
  | unlock => cases step; exact .unlock

theorem stage_step_change {path : Path} {next after : Change} {result : PassResult}
    {watcher changed : Watcher} {passes : List Pass} (step : next.step path result watcher = some (changed, after)) :
    Stage.Step path result (watcher.ledger passes) next.stage
      (changed.ledger ((change path next).record result passes)) after.stage := by
  cases next with
  | look =>
    simp only [Change.step] at step
    cases found : watcher.components.get? path with
    | some old =>
      simp only [found, Option.some.injEq, Prod.mk.injEq] at step
      obtain ⟨rfl, rfl⟩ := step
      exact .tracked (by simp [Ledger.isKnown, Watcher.ledger, found])
    | none =>
      simp only [found, Option.some.injEq, Prod.mk.injEq] at step
      obtain ⟨rfl, rfl⟩ := step
      exact .untracked (by simp [Ledger.isKnown, Watcher.ledger, found])
  | lock =>
    simp only [Change.step, Option.ite_none_left_eq_some, Option.some.injEq, Prod.mk.injEq] at step
    obtain ⟨free, rfl, rfl⟩ := step
    exact .lock (by simpa [Ledger.isLocked, Watcher.ledger, Watcher.isLocked] using free)
  | endPass =>
    cases result with
    | some compiled =>
      simp only [Change.step, Option.some.injEq, Prod.mk.injEq] at step
      obtain ⟨rfl, rfl⟩ := step
      exact .endPass
    | none =>
      simp only [Change.step, Option.some.injEq, Prod.mk.injEq] at step
      obtain ⟨rfl, rfl⟩ := step
      exact .endPass
  | compare query? =>
    simp only [Change.step, Option.some.injEq, Prod.mk.injEq] at step
    obtain ⟨rfl, rfl⟩ := step
    by_cases same : query? = (watcher.components.get? path).bind (·.query?)
    · rw [if_pos same]
      exact .agree same.symm
    · rw [if_neg same]
      exact .differ
  | run component paths pages =>
    cases pages with
    | nil => cases step; exact .settle
    | cons page rest => cases step; exact .settle
  | done outcome => simp [Change.step] at step
  | compile => cases step; exact .compile
  | keep query? => cases step; exact .keep
  | publish component => cases step; exact .publish
  | findPages component => cases step; exact .settle
  | clear component pages => cases step; exact .settle
  | unlock outcome => cases step; exact .unlock

theorem stage_step {reaction after : Reaction} {result : PassResult} {watcher changed : Watcher}
    (passes : List Pass) (step : reaction.step result watcher = some (changed, after)) :
    after.component = reaction.component ∧
      Stage.Step reaction.component result (watcher.ledger passes) reaction.stage
        (changed.ledger (reaction.record result passes)) after.stage := by
  cases reaction with
  | registration component next =>
    simp only [Reaction.step, Option.map_eq_some_iff, Prod.mk.injEq, Prod.exists] at step
    obtain ⟨_, _, moved, rfl, rfl⟩ := step
    exact ⟨rfl, stage_step_registration moved⟩
  | change path next =>
    simp only [Reaction.step, Option.map_eq_some_iff, Prod.mk.injEq, Prod.exists] at step
    obtain ⟨_, _, moved, rfl, rfl⟩ := step
    exact ⟨rfl, stage_step_change moved⟩

end Reaction

end SiteQuery.Watch
