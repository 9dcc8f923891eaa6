import Mathlib.Data.List.Perm.Basic
import SiteQuery.Proofs.Watch.Consistency
import SiteQuery.Watch.Host

/-!
A watcher with its calls: they begin at any time and go on one step at a time, in any order.

`Session.consistent` and `Session.mirrored` hold the invariants along every run.
-/

namespace SiteQuery.Watch

structure Session where
  watcher : Watcher
  /-- All calls so far, those that are over among them. -/
  reactions : List Reaction := []
  /-- All passes so far, the last one first. -/
  passes : List Pass := []

inductive Event where
  | register (component : Path)
  | sourceChanged (path : Path)
  /-- A call goes on; a pass that ends has the result. -/
  | move (index : Nat) (result : PassResult)
  /-- An action that comes from elsewhere. -/
  | dispatch (action : Action)
  | elapse (time : Nat)

theorem Event.move_or_stays (event : Event) :
    (∃ index result, event = .move index result) ∨ ∀ index result, event ≠ .move index result := by
  cases event with
  | move index result => exact .inl ⟨index, result, rfl⟩
  | _ => exact .inr nofun

/-- Whether the watcher leaves actions like this one to others. -/
def Action.isForeign : Action → Bool
  | upsertPage _ | addDependency _ _ | removeDependencies _ => true
  | addComponent _ | setQuery _ _ | setStage _ => false

/-- The reaction, as far as queries are concerned. -/
def Reaction.call (reaction : Reaction) : Call := ⟨reaction.component, reaction.stage⟩

namespace Session

def ofStore (store : Store) (delay : Nat) : Session := { watcher := .ofStore store delay }

def move (session : Session) (index : Nat) (result : PassResult) : Option Session := do
  let reaction ← session.reactions[index]?
  let (watcher, next) ← reaction.step result session.watcher
  return { watcher, reactions := session.reactions.set index next, passes := reaction.record result session.passes }

def step (session : Session) : Event → Option Session
  | .register component => some { session with reactions := session.reactions ++ [.register component] }
  | .sourceChanged path => some { session with reactions := session.reactions ++ [.sourceChanged path] }
  | .move index result => session.move index result
  | .dispatch action =>
    if action.isForeign then
      some { session with watcher := { session.watcher with store := session.watcher.store.dispatch action } }
    else none
  | .elapse time => some { session with watcher := (Host.elapse time { watcher := session.watcher }).watcher }

def ledger (session : Session) : Ledger := session.watcher.ledger session.passes

def calls (session : Session) : List Call := session.reactions.map Reaction.call

end Session

theorem StoreState.components_apply_foreign (state : StoreState) {action : Action} (foreign : action.isForeign = true) :
    (state.apply action).components = state.components := by
  cases action with
  | upsertPage | addDependency | removeDependencies => rfl
  | addComponent | setQuery | setStage => exact absurd foreign nofun

theorem Watcher.ledger_elapse (watcher : Watcher) (time : Nat) (passes : List Pass) :
    (Host.elapse time { watcher := watcher }).watcher.ledger passes = watcher.ledger passes := by
  unfold Host.elapse
  rcases watcher.timer.elapse time with ⟨_ | ⟨due, _⟩, timer⟩
  · rfl
  · by_cases finished : watcher.isFinished = true
    · simp [finishBootstrap, ledger, finished]
    · simp [finishBootstrap, ledger, finished, dispatch, Store.dispatch, Store.apply, Store.send, StoreState.apply]

namespace Session

variable {session after : Session} {event : Event}

/-- One call goes on, and all others stay as they are. -/
theorem exists_moved {index : Nat} {result : PassResult} (moved : session.move index result = some after) :
    ∃ reaction next others, session.reactions[index]? = some reaction ∧
      reaction.step result session.watcher = some (after.watcher, next) ∧
      session.reactions.Perm (reaction :: others) ∧ after.reactions.Perm (next :: others) ∧
      after.passes = reaction.record result session.passes := by
  simp only [move, Option.bind_eq_bind, Option.bind_eq_some_iff, Option.pure_def, Option.some.injEq,
    Prod.exists] at moved
  obtain ⟨reaction, here, watcher, next, stepped, rfl⟩ := moved
  obtain ⟨bound, atIndex⟩ := List.getElem?_eq_some_iff.mp here
  refine ⟨reaction, next, session.reactions.eraseIdx index, here, stepped, ?_, ?_, rfl⟩
  · rw [← atIndex]
    exact (List.getElem_cons_eraseIdx_perm bound).symm
  · exact List.set_perm_cons_eraseIdx bound next

theorem stage_step_move {index : Nat} {result : PassResult} (moved : session.move index result = some after) :
    ∃ reaction others next, session.reactions[index]? = some reaction ∧
      session.calls.Perm (reaction.call :: others) ∧ after.calls.Perm (⟨reaction.component, next⟩ :: others) ∧
      Stage.Step reaction.component result session.ledger reaction.stage after.ledger next := by
  obtain ⟨reaction, next, others, here, stepped, before, afterwards, passes⟩ := exists_moved moved
  obtain ⟨sameComponent, stageStep⟩ := Reaction.stage_step session.passes stepped
  refine ⟨reaction, others.map Reaction.call, next.stage, here, before.map Reaction.call, ?_, ?_⟩
  · have changed := afterwards.map Reaction.call
    rwa [List.map_cons, Reaction.call, sameComponent] at changed
  · rwa [← passes] at stageStep

/-- Where no call goes on, calls may begin, and nothing else happens to queries. -/
theorem ledger_step (step : session.step event = some after) (stays : ∀ index result, event ≠ .move index result) :
    after.ledger = session.ledger ∧ ∃ begun : List Call, after.calls.Perm (begun ++ session.calls) ∧
      (∀ call ∈ begun, call.stage = .unseen ∨ call.stage = .looking) ∧
      ∀ path, event = .sourceChanged path → ⟨path, .looking⟩ ∈ begun := by
  cases event with
  | register component =>
    cases step
    refine ⟨rfl, [⟨component, .unseen⟩], ?_, by simp, by simp⟩
    simp only [calls, List.map_append]
    exact List.perm_append_comm
  | sourceChanged path =>
    cases step
    refine ⟨rfl, [⟨path, .looking⟩], ?_, by simp, by simp⟩
    simp only [calls, List.map_append]
    exact List.perm_append_comm
  | move index result => exact absurd rfl (stays index result)
  | dispatch action =>
    simp only [Session.step, Option.ite_none_right_eq_some, Option.some.injEq] at step
    obtain ⟨foreign, rfl⟩ := step
    refine ⟨?_, [], List.Perm.refl _, by simp, by simp⟩
    simp [ledger, Watcher.ledger, Store.dispatch, Store.apply, Store.send, StoreState.components_apply_foreign _ foreign]
  | elapse time =>
    cases step
    exact ⟨Watcher.ledger_elapse _ _ _, [], List.Perm.refl _, by simp, by simp⟩

theorem consistent_step (step : session.step event = some after)
    (consistent : Consistent session.ledger session.calls) : Consistent after.ledger after.calls := by
  rcases event.move_or_stays with ⟨index, result, rfl⟩ | stays
  · obtain ⟨reaction, others, next, _, before, afterwards, stageStep⟩ := stage_step_move step
    exact ((consistent.perm before).step stageStep).perm afterwards.symm
  · obtain ⟨sameLedger, begun, calls, idle, _⟩ := ledger_step step stays
    rw [sameLedger]
    exact (consistent.append idle).perm calls.symm

theorem mirrored_step (step : session.step event = some after)
    (consistent : Consistent session.ledger session.calls) (mirrored : Mirrored session.ledger session.calls) :
    Mirrored after.ledger after.calls := by
  rcases event.move_or_stays with ⟨index, result, rfl⟩ | stays
  · obtain ⟨reaction, others, next, _, before, afterwards, stageStep⟩ := stage_step_move step
    exact ((mirrored.perm before).step (consistent.perm before) stageStep).perm afterwards.symm
  · obtain ⟨sameLedger, begun, calls, _, _⟩ := ledger_step step stays
    rw [sameLedger]
    exact (mirrored.append begun).perm calls.symm

theorem consistent_ofStore (store : Store) (delay : Nat) :
    Consistent (ofStore store delay).ledger (ofStore store delay).calls where
  apart := .nil
  locked path := by simp [ledger, Watcher.ledger, Ledger.isLocked, ofStore, Watcher.ofStore, calls]
  underWay := by simp [calls, ofStore]
  found := by simp [calls, ofStore]
  kept path _ := rfl

theorem mirrored_ofStore {store : Store} (unset : store.state.components = []) (delay : Nat) :
    Mirrored (ofStore store delay).ledger (ofStore store delay).calls := by
  intro path _
  simp [ledger, Watcher.ledger, ofStore, Watcher.ofStore, Ledger.published?, Ledger.kept?, unset,
    PageComponent.queryOf?, PageComponent.find?, ComponentMap.get?]

end Session

end SiteQuery.Watch
