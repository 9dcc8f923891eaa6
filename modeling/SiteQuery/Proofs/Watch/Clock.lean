import SiteQuery.Proofs.Watch.Updates

/-!
Runs of a watcher by the clock.

Calls go on at any moment, and their passes take any time. Time goes by up to the moment when the timer runs out; a
call that arms it at that very moment may come before or after it. `Session.elapse_ticks` ties this to the clock of
the host, which goes on in one step.
-/

namespace SiteQuery.Watch

/-- What may happen to a watcher by the clock. -/
inductive Tick where
  | turn (turn : Turn)
  /-- Time goes by, and the timer does not run out before. -/
  | wait (time : Nat)
  /-- The timer runs out. -/
  | expire

/-- Time stands still. -/
def Turn.isInstant : Turn → Bool
  | .event (.elapse _) => false
  | _ => true

namespace Watcher

/-- How often the watcher has told that bootstrap is over. -/
def finishes (watcher : Watcher) : Nat := watcher.effects.count (.dispatched (.setStage .finished))

def mayWait (watcher : Watcher) (time : Nat) : Bool :=
  watcher.now ≤ time && watcher.timer.pending?.all (time ≤ ·.1)

/-- The clock and the timer are as before, and bootstrap is as far as before. -/
structure SameClock (watcher changed : Watcher) : Prop where
  now : changed.now = watcher.now
  timer : changed.timer = watcher.timer
  isFinished : changed.isFinished = watcher.isFinished
  finishes : changed.finishes = watcher.finishes

theorem SameClock.refl (watcher : Watcher) : watcher.SameClock watcher := ⟨rfl, rfl, rfl, rfl⟩

theorem finishes_dispatch (watcher : Watcher) (action : Action) :
    (watcher.dispatch action).finishes = watcher.finishes + if action = .setStage .finished then 1 else 0 := by
  by_cases isLast : action = .setStage .finished <;> simp [finishes, dispatch, List.count_append, isLast]

theorem sameClock_dispatch (watcher : Watcher) {action : Action} (other : action ≠ .setStage .finished) :
    watcher.SameClock (watcher.dispatch action) :=
  ⟨rfl, rfl, rfl, by rw [finishes_dispatch, if_neg other, Nat.add_zero]⟩

theorem sameClock_runPage (watcher : Watcher) (page : Page) (component : PageComponent) :
    watcher.SameClock (watcher.runPage page component) :=
  ⟨rfl, rfl, rfl, by simp [finishes, runPage, List.count_append]⟩

theorem timer_finishBootstrap (watcher : Watcher) : watcher.finishBootstrap.timer = watcher.timer := by
  by_cases isFinished : watcher.isFinished = true <;> simp [finishBootstrap, isFinished, dispatch]

theorem now_finishBootstrap (watcher : Watcher) : watcher.finishBootstrap.now = watcher.now := by
  by_cases isFinished : watcher.isFinished = true <;> simp [finishBootstrap, isFinished, dispatch]

theorem isFinished_finishBootstrap (watcher : Watcher) : watcher.finishBootstrap.isFinished = true := by
  by_cases isFinished : watcher.isFinished = true <;> simp [finishBootstrap, isFinished, dispatch]

/-- What is told when the timer runs out is told the first time only. -/
theorem finishes_finishBootstrap (watcher : Watcher) :
    watcher.finishBootstrap.finishes = watcher.finishes + if watcher.isFinished then 0 else 1 := by
  by_cases isFinished : watcher.isFinished = true
  · simp [finishBootstrap, isFinished]
  · rw [finishBootstrap, if_neg isFinished, finishes_dispatch, if_pos rfl, if_neg isFinished]
    rfl

end Watcher

/-- A registration with nothing to do but to give the lock back, or over: it gives true. -/
def Reaction.isRegistered : Reaction → Bool
  | registration _ .unlock | registration _ (.done true) => true
  | _ => false

/-- A call that has just begun. -/
def Reaction.isFresh : Reaction → Bool
  | registration _ .claim | change _ .look => true
  | _ => false

/-- The registration arms the timer next. -/
def Reaction.isArming : Reaction → Bool
  | registration _ .armTimer => true
  | _ => false

namespace Reaction

variable {result : PassResult} {watcher changed : Watcher} {reaction next : Reaction}

theorem sameClock_registration {component : Path} {stage after : Registration}
    (step : stage.step component result watcher = some (changed, after)) (notArming : stage ≠ .armTimer) :
    watcher.SameClock changed := by
  cases stage with
  | claim =>
    simp only [Registration.step] at step
    cases found : watcher.components.get? component <;>
      simp only [found, Option.some.injEq, Prod.mk.injEq] at step <;> obtain ⟨rfl, rfl⟩ := step <;>
      exact ⟨rfl, rfl, rfl, rfl⟩
  | lock =>
    simp only [Registration.step, Option.ite_none_left_eq_some, Option.some.injEq, Prod.mk.injEq] at step
    obtain ⟨_, rfl, rfl⟩ := step
    exact ⟨rfl, rfl, rfl, rfl⟩
  | endPass => cases result <;> cases step <;> exact .refl watcher
  | armTimer => exact absurd rfl notArming
  | done isNew => simp [Registration.step] at step
  | announce => cases step; exact Watcher.sameClock_dispatch watcher (by rintro ⟨⟩)
  | publish query? => cases step; exact Watcher.sameClock_dispatch watcher (by rintro ⟨⟩)
  | compile => cases step; exact ⟨rfl, rfl, rfl, rfl⟩
  | keep query? => cases step; exact ⟨rfl, rfl, rfl, rfl⟩
  | checkStage => cases step; exact .refl watcher
  | unlock => cases step; exact ⟨rfl, rfl, rfl, rfl⟩

theorem sameClock_change {path : Path} {stage after : Change}
    (step : stage.step path result watcher = some (changed, after)) : watcher.SameClock changed := by
  cases stage with
  | look =>
    simp only [Change.step] at step
    cases found : watcher.components.get? path <;>
      simp only [found, Option.some.injEq, Prod.mk.injEq] at step <;> obtain ⟨rfl, rfl⟩ := step <;>
      exact .refl watcher
  | lock =>
    simp only [Change.step, Option.ite_none_left_eq_some, Option.some.injEq, Prod.mk.injEq] at step
    obtain ⟨_, rfl, rfl⟩ := step
    exact ⟨rfl, rfl, rfl, rfl⟩
  | endPass => cases result <;> cases step <;> exact .refl watcher
  | run component paths pages =>
    cases pages with
    | nil => cases step; exact .refl watcher
    | cons page rest => cases step; exact Watcher.sameClock_runPage watcher page component
  | done outcome => simp [Change.step] at step
  | publish component => cases step; exact Watcher.sameClock_dispatch watcher (by rintro ⟨⟩)
  | clear component pages => cases step; exact Watcher.sameClock_dispatch watcher (by rintro ⟨⟩)
  | compile => cases step; exact ⟨rfl, rfl, rfl, rfl⟩
  | compare query? => cases step; exact .refl watcher
  | keep query? => cases step; exact ⟨rfl, rfl, rfl, rfl⟩
  | findPages component => cases step; exact .refl watcher
  | unlock outcome => cases step; exact ⟨rfl, rfl, rfl, rfl⟩

/-- Of all steps of a reaction only one of a registration has to do with the clock. -/
theorem sameClock_step (step : reaction.step result watcher = some (changed, next))
    (notArming : reaction.isArming = false) : watcher.SameClock changed := by
  cases reaction with
  | registration component stage =>
    simp only [Reaction.step, Option.map_eq_some_iff, Prod.mk.injEq, Prod.exists] at step
    obtain ⟨_, _, moved, rfl, rfl⟩ := step
    refine sameClock_registration moved ?_
    rintro rfl
    cases notArming
  | change path stage =>
    simp only [Reaction.step, Option.map_eq_some_iff, Prod.mk.injEq, Prod.exists] at step
    obtain ⟨_, _, moved, rfl, rfl⟩ := step
    exact sameClock_change moved

theorem step_of_isArming (step : reaction.step result watcher = some (changed, next))
    (isArming : reaction.isArming = true) : changed = watcher.armTimer ∧ next.isRegistered = true := by
  cases reaction with
  | registration component stage =>
    cases stage with
    | armTimer => cases step; exact ⟨rfl, rfl⟩
    | _ => exact absurd isArming nofun
  | change path stage => exact absurd isArming nofun

theorem isRegistered_step (step : reaction.step result watcher = some (changed, next))
    (registered : reaction.isRegistered = true) : next.isRegistered = true := by
  cases reaction with
  | registration component stage =>
    cases stage with
    | unlock => cases step; rfl
    | done isNew => exact absurd step nofun
    | _ => exact absurd registered nofun
  | change path stage => exact absurd registered nofun

end Reaction

namespace Session

def wait (session : Session) (time : Nat) : Session :=
  { session with watcher := { session.watcher with now := time } }

def expire (session : Session) (timer : DebounceTimer Unit) : Session :=
  { session with watcher := { session.watcher with timer }.finishBootstrap }

@[simp] theorem timer_expire (session : Session) (timer : DebounceTimer Unit) :
    (session.expire timer).watcher.timer = timer := Watcher.timer_finishBootstrap _

@[simp] theorem now_expire (session : Session) (timer : DebounceTimer Unit) :
    (session.expire timer).watcher.now = session.watcher.now := Watcher.now_finishBootstrap _

@[simp] theorem isFinished_expire (session : Session) (timer : DebounceTimer Unit) :
    (session.expire timer).watcher.isFinished = true := Watcher.isFinished_finishBootstrap _

theorem finishes_expire (session : Session) (timer : DebounceTimer Unit) :
    (session.expire timer).watcher.finishes =
      session.watcher.finishes + if session.watcher.isFinished then 0 else 1 := Watcher.finishes_finishBootstrap _

theorem ledger_wait (session : Session) (time : Nat) : (session.wait time).ledger = session.ledger := rfl

theorem ledger_expire (session : Session) (timer : DebounceTimer Unit) :
    (session.expire timer).ledger = session.ledger := by
  by_cases isFinished : session.watcher.isFinished = true <;>
    simp [ledger, Watcher.ledger, expire, Watcher.finishBootstrap, isFinished, Watcher.dispatch, Store.dispatch,
      Store.apply, Store.send, StoreState.apply]

def tick (session : Session) : Tick → Option Session
  | .turn turn => if turn.isInstant then session.turn turn else none
  | .wait time => if session.watcher.mayWait time then some (session.wait time) else none
  | .expire =>
    match session.watcher.timer.elapse session.watcher.now with
    | (none, _) => none
    | (some _, timer) => some (session.expire timer)

def ticks (session : Session) (ticks : List Tick) : Option Session := ticks.foldlM tick session

/-- Everything that can happen by the clock. -/
inductive Goes (session : Session) : Tick → Session → Prop
  | arm {index result reaction next} (here : session.reactions[index]? = some reaction)
      (isArming : reaction.isArming = true)
      (step : reaction.step result session.watcher = some (session.watcher.armTimer, next)) :
      Goes session (.turn (.event (.move index result)))
        ⟨session.watcher.armTimer, session.reactions.set index next, reaction.record result session.passes⟩
  | go {index result reaction next watcher} (here : session.reactions[index]? = some reaction)
      (notArming : reaction.isArming = false) (sameClock : session.watcher.SameClock watcher)
      (step : reaction.step result session.watcher = some (watcher, next)) :
      Goes session (.turn (.event (.move index result)))
        ⟨watcher, session.reactions.set index next, reaction.record result session.passes⟩
  | stand {turn after begun} (stays : ∀ index result, turn ≠ .event (.move index result))
      (sameClock : session.watcher.SameClock after.watcher) (sameLedger : after.ledger = session.ledger)
      (reactions : after.reactions = session.reactions ++ begun)
      (fresh : ∀ reaction ∈ begun, reaction.isFresh = true) :
      Goes session (.turn turn) after
  | wait {time} (later : session.watcher.now ≤ time)
      (before : ∀ due label, session.watcher.timer.pending? = some (due, label) → time ≤ due) :
      Goes session (.wait time) (session.wait time)
  | expire {due} (pending : session.watcher.timer.pending? = some (due, ())) (isDue : due ≤ session.watcher.now) :
      Goes session .expire (session.expire { session.watcher.timer with pending? := none })

variable {session after : Session}

theorem goes_turn {turn : Turn} (turned : session.turn turn = some after) (isInstant : turn.isInstant = true) :
    session.Goes (.turn turn) after := by
  cases turn with
  | setStage stage =>
    cases turned
    exact .stand (by rintro _ _ ⟨⟩) ⟨rfl, rfl, rfl, rfl⟩ rfl (List.append_nil _).symm (List.forall_mem_nil _)
  | event event =>
    cases event with
    | register component =>
      cases turned
      exact .stand (by rintro _ _ ⟨⟩) (.refl session.watcher) rfl rfl (List.forall_mem_singleton.mpr rfl)
    | sourceChanged path =>
      cases turned
      exact .stand (by rintro _ _ ⟨⟩) (.refl session.watcher) rfl rfl (List.forall_mem_singleton.mpr rfl)
    | move index result =>
      simp only [turn, step, move, Option.bind_eq_bind, Option.bind_eq_some_iff, Option.pure_def, Option.some.injEq,
        Prod.exists] at turned
      obtain ⟨reaction, here, watcher, next, stepped, rfl⟩ := turned
      by_cases isArming : reaction.isArming = true
      · obtain ⟨rfl, -⟩ := Reaction.step_of_isArming stepped isArming
        exact .arm here isArming stepped
      · have notArming : reaction.isArming = false := Bool.not_eq_true _ ▸ isArming
        exact .go here notArming (Reaction.sameClock_step stepped notArming) stepped
    | dispatch action =>
      have sameLedger : after.ledger = session.ledger :=
        (ledger_step (show session.step (.dispatch action) = some after from turned) (by rintro _ _ ⟨⟩)).1
      simp only [Session.turn, Session.step, Option.ite_none_right_eq_some, Option.some.injEq] at turned
      obtain ⟨_, rfl⟩ := turned
      exact .stand (by rintro _ _ ⟨⟩) ⟨rfl, rfl, rfl, rfl⟩ sameLedger (List.append_nil _).symm (List.forall_mem_nil _)
    | elapse time => cases isInstant

theorem goes_tick {tick : Tick} (ticked : session.tick tick = some after) : session.Goes tick after := by
  cases tick with
  | turn turn =>
    simp only [Session.tick, Option.ite_none_right_eq_some] at ticked
    exact goes_turn ticked.2 ticked.1
  | wait time =>
    simp only [Session.tick, Option.ite_none_right_eq_some, Watcher.mayWait, Bool.and_eq_true, decide_eq_true_eq,
      Option.some.injEq] at ticked
    obtain ⟨⟨later, before⟩, rfl⟩ := ticked
    refine .wait later fun due label pending => ?_
    simpa [pending] using before
  | expire =>
    cases pending : session.watcher.timer.pending? with
    | none => simp [Session.tick, DebounceTimer.elapse, pending] at ticked
    | some entry =>
      obtain ⟨due, label⟩ := entry
      by_cases isDue : due ≤ session.watcher.now
      · simp only [Session.tick, DebounceTimer.elapse, pending, if_pos isDue, Option.some.injEq] at ticked
        subst ticked
        exact .expire pending isDue
      · simp [Session.tick, DebounceTimer.elapse, pending, isDue] at ticked

/-- Where the clock of the host goes on in one step, it goes on in these. -/
theorem elapse_ticks {time : Nat} (later : session.watcher.now ≤ time)
    (onTime : ∀ due label, session.watcher.timer.pending? = some (due, label) → session.watcher.now ≤ due) :
    ∃ ticks, session.ticks ticks = session.step (.elapse time) := by
  cases pending : session.watcher.timer.pending? with
  | none =>
    refine ⟨[.wait time], ?_⟩
    simp [ticks, tick, Watcher.mayWait, Session.step, Host.elapse, DebounceTimer.elapse, pending, later, wait]
  | some entry =>
    obtain ⟨due, label⟩ := entry
    by_cases isDue : due ≤ time
    · refine ⟨[.wait due, .expire, .wait time], ?_⟩
      have notYet := onTime due label pending
      simp [ticks, tick, Watcher.mayWait, Session.step, Host.elapse, DebounceTimer.elapse, pending, isDue, notYet,
        wait, expire, Watcher.timer_finishBootstrap, Watcher.now_finishBootstrap]
    · refine ⟨[.wait time], ?_⟩
      have before : time ≤ due := by omega
      simp [ticks, tick, Watcher.mayWait, Session.step, Host.elapse, DebounceTimer.elapse, pending, isDue, later,
        before, wait]

end Session

/-- Something that has happened, between the states before it and after it. -/
structure Moment where
  before : Session
  tick : Tick
  after : Session

namespace Moment

def time (moment : Moment) : Nat := moment.before.watcher.now

/-- A registration arms the timer. -/
def Arms (moment : Moment) (index : Nat) : Prop :=
  ∃ result reaction, moment.tick = .turn (.event (.move index result)) ∧
    moment.before.reactions[index]? = some reaction ∧ reaction.isArming = true

/-- The watcher tells that bootstrap is over. -/
def Finishes (moment : Moment) : Prop := moment.before.watcher.finishes < moment.after.watcher.finishes

instance (moment : Moment) : Decidable moment.Finishes := inferInstanceAs (Decidable (_ < _))

end Moment

namespace Session

/-- All that happens, in its order, as far as it can. -/
def history (session : Session) : List Tick → List Moment
  | [] => []
  | tick :: rest =>
    match session.tick tick with
    | none => []
    | some after => ⟨session, tick, after⟩ :: history after rest

variable {session final : Session}

/-- What every tick keeps holds at the end, and before each moment with all that has happened until then. -/
theorem ticks_invariant (holds : List Moment → Session → Prop)
    (kept : ∀ past session tick after, holds past session → session.tick tick = some after →
      holds (past ++ [⟨session, tick, after⟩]) after)
    {ticks : List Tick} (ran : session.ticks ticks = some final) (past : List Moment) (initially : holds past session) :
    holds (past ++ session.history ticks) final ∧
      ∀ moment ∈ session.history ticks, moment.before.tick moment.tick = some moment.after ∧
        ∃ earlier later, session.history ticks = earlier ++ moment :: later ∧
          holds (past ++ earlier) moment.before := by
  induction ticks generalizing session past with
  | nil =>
    cases ran
    exact ⟨by rwa [history, List.append_nil], by simp [history]⟩
  | cons tick rest ih =>
    simp only [Session.ticks, List.foldlM_cons, Option.bind_eq_bind, Option.bind_eq_some_iff] at ran
    obtain ⟨next, ticked, others⟩ := ran
    obtain ⟨atEnd, before⟩ := ih others _ (kept past session tick next initially ticked)
    simp only [history, ticked]
    refine ⟨by simpa using atEnd, fun moment member => ?_⟩
    rcases List.mem_cons.mp member with rfl | inRest
    · exact ⟨ticked, [], history next rest, rfl, by rwa [List.append_nil]⟩
    · obtain ⟨momentTicked, earlier, later, split, held⟩ := before moment inRest
      exact ⟨momentTicked, ⟨session, tick, next⟩ :: earlier, later, by rw [split]; rfl, by simpa using held⟩

end Session

end SiteQuery.Watch
