import Mathlib.Data.List.Chain
import Mathlib.Data.List.Infix
import SiteQuery.Proofs.Sorting
import SiteQuery.Watch.Timer

/-!
What a timer does over a schedule of calls.

`Countdown.run` lets a timer take its calls at the times of a schedule, and tells which callbacks ran, and when. Beside
`DebounceTimer`, which knows of the pending callback alone, stands `TaskTimer`: every call to arm it starts a task of its
own, and the timer holds the handle of the last one, finished or not. `run_exact` says of every schedule which callbacks
run and what the calls answer, with either timer.
-/

namespace SiteQuery.Watch

variable {Label Timer Other : Type}

inductive TimerCall (Label : Type) where
  | arm (label : Label)
  | cancel
deriving DecidableEq

/-- Calls with their times. -/
abbrev Schedule (Label : Type) := List (Nat × TimerCall Label)

/-- The callbacks that ran, each with its time, and the answer of every call; to arm a timer gives none. -/
structure TimerRecord (Label : Type) where
  ran : List (Nat × Label)
  answers : List (Option Bool)
deriving DecidableEq

/-- What can be done with a timer; `elapse` gives what runs until a time. -/
structure Countdown (Timer Label : Type) where
  arm : Timer → Nat → Label → Timer
  cancel : Timer → Bool × Timer
  elapse : Timer → Nat → List (Nat × Label) × Timer

namespace Countdown

def call (countdown : Countdown Timer Label) (timer : Timer) (now : Nat) : TimerCall Label → Option Bool × Timer
  | .arm label => (none, countdown.arm timer now label)
  | .cancel => (some (countdown.cancel timer).1, (countdown.cancel timer).2)

/-- Time passes up to each call, and at last up to the horizon. -/
def run (countdown : Countdown Timer Label) (horizon : Nat) : Timer → Schedule Label → TimerRecord Label
  | timer, [] => ⟨(countdown.elapse timer horizon).1, []⟩
  | timer, (now, call) :: rest =>
    let passed := countdown.elapse timer now
    let called := countdown.call passed.2 now call
    let others := run countdown horizon called.2 rest
    ⟨passed.1 ++ others.ran, called.1 :: others.answers⟩

/-- Two timers that stay related do the same. -/
structure Simulates (first : Countdown Timer Label) (second : Countdown Other Label) (related : Timer → Other → Prop) :
    Prop where
  arm : ∀ {a b} now label, related a b → related (first.arm a now label) (second.arm b now label)
  cancel : ∀ {a b}, related a b → (first.cancel a).1 = (second.cancel b).1 ∧ related (first.cancel a).2 (second.cancel b).2
  elapse : ∀ {a b} time, related a b →
    (first.elapse a time).1 = (second.elapse b time).1 ∧ related (first.elapse a time).2 (second.elapse b time).2

theorem Simulates.run {first : Countdown Timer Label} {second : Countdown Other Label} {related : Timer → Other → Prop}
    (simulates : first.Simulates second related) (horizon : Nat) {a : Timer} {b : Other} (areRelated : related a b)
    (schedule : Schedule Label) : first.run horizon a schedule = second.run horizon b schedule := by
  induction schedule generalizing a b with
  | nil => rw [Countdown.run, Countdown.run, (simulates.elapse horizon areRelated).1]
  | cons entry rest ih =>
    obtain ⟨now, call⟩ := entry
    obtain ⟨sameRan, passed⟩ := simulates.elapse now areRelated
    cases call with
    | arm label =>
      have others := ih (simulates.arm now label passed)
      simp only [Countdown.run, Countdown.call, sameRan, others]
    | cancel =>
      obtain ⟨sameAnswer, cancelled⟩ := simulates.cancel passed
      have others := ih cancelled
      simp only [Countdown.run, Countdown.call, sameRan, sameAnswer, others]

end Countdown

namespace DebounceTimer

def countdown : Countdown (DebounceTimer Label) Label where
  arm := arm
  cancel := cancel
  elapse timer time := ((timer.elapse time).1.toList, (timer.elapse time).2)

end DebounceTimer

inductive TaskState where
  | sleeping
  | finished
  | aborted
deriving DecidableEq

/-- A task that sleeps until a time and then runs its callback. -/
structure TimerTask (Label : Type) where
  due : Nat
  label : Label
  state : TaskState

namespace TimerTask

def isSleeping (task : TimerTask Label) : Bool := task.state == .sleeping

/-- A task that is over stays as it is. -/
def abort (task : TimerTask Label) : TimerTask Label := if task.isSleeping then { task with state := .aborted } else task

def isDue (time : Nat) (task : TimerTask Label) : Bool := task.isSleeping && task.due ≤ time

def finish (time : Nat) (task : TimerTask Label) : TimerTask Label :=
  if task.isDue time then { task with state := .finished } else task

end TimerTask

structure TaskTimer (Label : Type) where
  delay : Nat
  /-- All tasks that were ever started. -/
  tasks : List (TimerTask Label) := []
  /-- The place of the task whose handle is held. -/
  handle? : Option Nat := none

namespace TaskTimer

def abort (timer : TaskTimer Label) (index : Nat) : TaskTimer Label :=
  { timer with tasks := timer.tasks.modify index TimerTask.abort }

/-- A new task takes the place of the handle, and the one before is aborted. -/
def arm (timer : TaskTimer Label) (now : Nat) (label : Label) : TaskTimer Label :=
  let started := { timer with
    tasks := timer.tasks ++ [⟨now + timer.delay, label, .sleeping⟩]
    handle? := some timer.tasks.length }
  match timer.handle? with
  | some previous => started.abort previous
  | none => started

def isFinished (timer : TaskTimer Label) (index : Nat) : Bool := !timer.tasks[index]?.any TimerTask.isSleeping

def cancel (timer : TaskTimer Label) : Bool × TaskTimer Label :=
  let emptied := { timer with handle? := none }
  match timer.handle? with
  | some index => if timer.isFinished index then (false, emptied) else (true, emptied.abort index)
  | none => (false, emptied)

/-- Every sleeping task that is due runs, in the order of time. -/
def elapse (timer : TaskTimer Label) (time : Nat) : List (Nat × Label) × TaskTimer Label :=
  (sorted (fun a b => decide (a.1 ≤ b.1)) ((timer.tasks.filter (TimerTask.isDue time)).map fun task => (task.due, task.label)),
    { timer with tasks := timer.tasks.map (TimerTask.finish time) })

def countdown : Countdown (TaskTimer Label) Label where
  arm := arm
  cancel := cancel
  elapse := elapse

/-- No task sleeps, or only the one whose handle is held: that which is pending. -/
inductive Follows : TaskTimer Label → DebounceTimer Label → Prop
  | idle {delay tasks handle?} (ended : ∀ task ∈ tasks, task.isSleeping = false)
      (inside : ∀ index, handle? = some index → index < tasks.length) : Follows ⟨delay, tasks, handle?⟩ ⟨delay, none⟩
  | waiting {delay due label tasks} (ended : ∀ task ∈ tasks, task.isSleeping = false) :
      Follows ⟨delay, tasks ++ [⟨due, label, .sleeping⟩], some tasks.length⟩ ⟨delay, some (due, label)⟩

variable {tasks : List (TimerTask Label)}

theorem modify_abort_of_ended (ended : ∀ task ∈ tasks, task.isSleeping = false) (index : Nat) :
    tasks.modify index TimerTask.abort = tasks := by
  induction tasks generalizing index with
  | nil => cases index <;> rfl
  | cons task rest ih =>
    obtain ⟨here, others⟩ := List.forall_mem_cons.mp ended
    cases index with
    | zero => simp [TimerTask.abort, here]
    | succ index => simp [ih others]

theorem filter_isDue_of_ended (ended : ∀ task ∈ tasks, task.isSleeping = false) (time : Nat) :
    tasks.filter (TimerTask.isDue time) = [] := by
  refine List.filter_eq_nil_iff.mpr fun task member => ?_
  simp [TimerTask.isDue, ended task member]

theorem map_finish_of_ended (ended : ∀ task ∈ tasks, task.isSleeping = false) (time : Nat) :
    tasks.map (TimerTask.finish time) = tasks := by
  refine (List.map_congr_left fun task member => ?_).trans (List.map_id tasks)
  simp [TimerTask.finish, TimerTask.isDue, ended task member]

theorem modify_append_of_lt (change : TimerTask Label → TimerTask Label) {index : Nat} (inside : index < tasks.length)
    (others : List (TimerTask Label)) : (tasks ++ others).modify index change = tasks.modify index change ++ others := by
  induction tasks generalizing index with
  | nil => cases inside
  | cons first rest ih =>
    cases index with
    | zero => rfl
    | succ index => simpa using ih (Nat.lt_of_succ_lt_succ inside)

theorem modify_length_append (task : TimerTask Label) (change : TimerTask Label → TimerTask Label) :
    (tasks ++ [task]).modify tasks.length change = tasks ++ [change task] := by
  induction tasks with
  | nil => rfl
  | cons first rest ih => simpa using ih

variable {timer : TaskTimer Label} {other : DebounceTimer Label}

theorem Follows.arm (follows : timer.Follows other) (now : Nat) (label : Label) :
    (timer.arm now label).Follows (other.arm now label) := by
  cases follows with
  | @idle delay tasks handle? ended inside =>
    cases handle? with
    | none => exact .waiting ended
    | some index =>
      have same : (tasks ++ [(⟨now + delay, label, .sleeping⟩ : TimerTask Label)]).modify index TimerTask.abort =
          tasks ++ [⟨now + delay, label, .sleeping⟩] := by
        rw [modify_append_of_lt _ (inside index rfl), modify_abort_of_ended ended]
      simp only [TaskTimer.arm, TaskTimer.abort, same]
      exact .waiting ended
  | @waiting delay due before tasks ended =>
    have inside : tasks.length < (tasks ++ [(⟨due, before, .sleeping⟩ : TimerTask Label)]).length := by simp
    have aborted : ∀ task ∈ tasks ++ [TimerTask.abort ⟨due, before, .sleeping⟩], task.isSleeping = false :=
      List.forall_mem_append.mpr ⟨ended, List.forall_mem_singleton.mpr rfl⟩
    have length : (tasks ++ [(⟨due, before, .sleeping⟩ : TimerTask Label)]).length =
        (tasks ++ [TimerTask.abort ⟨due, before, .sleeping⟩]).length := by simp
    simp only [TaskTimer.arm, TaskTimer.abort, modify_append_of_lt _ inside, modify_length_append, length]
    exact .waiting aborted

theorem Follows.cancel (follows : timer.Follows other) :
    timer.cancel.1 = other.cancel.1 ∧ timer.cancel.2.Follows other.cancel.2 := by
  cases follows with
  | @idle delay tasks handle? ended inside =>
    cases handle? with
    | none => exact ⟨rfl, .idle ended nofun⟩
    | some index =>
      have isOver : isFinished ⟨delay, tasks, some index⟩ index = true := by
        have bound := inside index rfl
        simp [isFinished, List.getElem?_eq_getElem bound, ended _ (List.getElem_mem bound)]
      simp only [TaskTimer.cancel, isOver, if_pos]
      exact ⟨rfl, .idle ended nofun⟩
  | @waiting delay due label tasks ended =>
    have isSleeping : isFinished ⟨delay, tasks ++ [⟨due, label, .sleeping⟩], some tasks.length⟩ tasks.length = false := by
      simp [isFinished, TimerTask.isSleeping]
    simp only [TaskTimer.cancel, isSleeping, TaskTimer.abort, modify_length_append]
    exact ⟨rfl, .idle (List.forall_mem_append.mpr ⟨ended, List.forall_mem_singleton.mpr rfl⟩) nofun⟩

theorem Follows.elapse (follows : timer.Follows other) (time : Nat) :
    (timer.elapse time).1 = (other.elapse time).1.toList ∧ (timer.elapse time).2.Follows (other.elapse time).2 := by
  cases follows with
  | @idle delay tasks handle? ended inside =>
    simp only [TaskTimer.elapse, DebounceTimer.elapse, filter_isDue_of_ended ended, map_finish_of_ended ended]
    exact ⟨rfl, .idle ended inside⟩
  | @waiting delay due label tasks ended =>
    by_cases isDue : due ≤ time
    · have finished : TimerTask.finish time ⟨due, label, .sleeping⟩ = ⟨due, label, .finished⟩ := by
        simp [TimerTask.finish, TimerTask.isDue, TimerTask.isSleeping, isDue]
      have ran : [(⟨due, label, .sleeping⟩ : TimerTask Label)].filter (TimerTask.isDue time) = [⟨due, label, .sleeping⟩] := by
        simp [TimerTask.isDue, TimerTask.isSleeping, isDue]
      simp only [TaskTimer.elapse, DebounceTimer.elapse, List.filter_append, List.map_append, filter_isDue_of_ended ended,
        map_finish_of_ended ended, ran, List.map_cons, finished, if_pos isDue]
      refine ⟨rfl, .idle (List.forall_mem_append.mpr ⟨ended, List.forall_mem_singleton.mpr rfl⟩) ?_⟩
      rintro _ ⟨⟩
      simp
    · have same : TimerTask.finish time ⟨due, label, .sleeping⟩ = ⟨due, label, .sleeping⟩ := by
        simp [TimerTask.finish, TimerTask.isDue, isDue]
      have none : [(⟨due, label, .sleeping⟩ : TimerTask Label)].filter (TimerTask.isDue time) = [] := by
        simp [TimerTask.isDue, isDue]
      simp only [TaskTimer.elapse, DebounceTimer.elapse, List.filter_append, List.map_append, filter_isDue_of_ended ended,
        map_finish_of_ended ended, none, List.map_cons, same, if_neg isDue]
      exact ⟨rfl, .waiting ended⟩

theorem simulates : (countdown : Countdown (TaskTimer Label) Label).Simulates DebounceTimer.countdown Follows where
  arm now label follows := follows.arm now label
  cancel follows := follows.cancel
  elapse time follows := follows.elapse time

end TaskTimer

/-- What is assumed of the times of calls: they do not go back nor beyond the horizon, and none is the very time at which
the callback of the call before is due. -/
structure Schedule.IsTimed (delay horizon : Nat) (schedule : Schedule Label) : Prop where
  ordered : schedule.Pairwise fun a b => a.1 ≤ b.1
  inside : ∀ entry ∈ schedule, entry.1 ≤ horizon
  apart : schedule.IsChain fun a b => ∀ label, a.2 = .arm label → b.1 ≠ a.1 + delay

/-- The callback that a call starts to wait for. -/
def TimerCall.starts? (delay now : Nat) : TimerCall Label → Option (Nat × Label)
  | .arm label => some (now + delay, label)
  | .cancel => none

namespace Schedule.IsTimed

variable {delay horizon now : Nat} {call : TimerCall Label} {rest : Schedule Label}

theorem tail (timed : Schedule.IsTimed delay horizon ((now, call) :: rest)) : Schedule.IsTimed delay horizon rest where
  ordered := (List.pairwise_cons.mp timed.ordered).2
  inside := (List.forall_mem_cons.mp timed.inside).2
  apart := (List.isChain_cons.mp timed.apart).2

theorem next (timed : Schedule.IsTimed delay horizon ((now, call) :: rest)) {due : Nat} {label : Label}
    (starts : call.starts? delay now = some (due, label)) : ∀ entry ∈ rest.head?, entry.1 ≠ due := by
  cases call with
  | cancel => cases starts
  | arm other =>
    cases starts
    exact fun entry isNext => (List.isChain_cons.mp timed.apart).1 entry isNext label rfl

end Schedule.IsTimed

namespace DebounceTimer

/-- The callback is due by the horizon, and before all calls that are still to come. -/
def runsBefore (horizon : Nat) (later : Schedule Label) (callback : Nat × Label) : Bool :=
  callback.1 ≤ horizon && later.all fun entry => callback.1 < entry.1

/-- The callback that the first call starts, if no other call comes within the delay. -/
def survivor? (delay horizon : Nat) : Schedule Label → Option (Nat × Label)
  | [] => none
  | (now, call) :: later => (call.starts? delay now).filter (runsBefore horizon later)

variable {horizon now : Nat} {rest : Schedule Label}

def answer? (timer : DebounceTimer Label) (now : Nat) : TimerCall Label → Option Bool
  | .arm _ => none
  | .cancel => some (timer.pending?.any fun callback => now < callback.1)

/-- The pending callback runs before a call or is given up with it. -/
theorem elapse_eq {call : TimerCall Label} {timer : DebounceTimer Label}
    (timed : Schedule.IsTimed timer.delay horizon ((now, call) :: rest))
    (apart : ∀ due label, timer.pending? = some (due, label) → now ≠ due) :
    (timer.elapse now).1 = timer.pending?.filter (runsBefore horizon ((now, call) :: rest)) ∧
      (timer.elapse now).2 = ⟨timer.delay, timer.pending?.filter fun callback => now < callback.1⟩ := by
  have onTime : now ≤ horizon := (List.forall_mem_cons.mp timed.inside).1
  have ordered : ∀ entry ∈ rest, now ≤ entry.1 := (List.pairwise_cons.mp timed.ordered).1
  obtain ⟨delay, pending?⟩ := timer
  cases pending? with
  | none => exact ⟨rfl, rfl⟩
  | some callback =>
    obtain ⟨due, label⟩ := callback
    have notNow : now ≠ due := apart due label rfl
    by_cases isDue : due ≤ now
    · have before : due < now := by omega
      have afterwards : ∀ entry ∈ rest, due < entry.1 := fun entry member => Nat.lt_of_lt_of_le before (ordered entry member)
      have runs : runsBefore horizon ((now, call) :: rest) (due, label) = true := by
        simpa [runsBefore, Nat.le_trans isDue onTime, before] using fun time call => afterwards (time, call)
      simp [elapse, Option.filter_some, isDue, runs, Nat.not_lt.mpr isDue]
    · have stays : runsBefore horizon ((now, call) :: rest) (due, label) = false := by
        simp [runsBefore, Nat.le_of_not_le isDue]
      simp [elapse, Option.filter_some, isDue, stays, Nat.lt_of_not_le isDue]

/-- After a call the timer waits for what the call has started, and for nothing else. -/
theorem run_cons {call : TimerCall Label} {timer : DebounceTimer Label}
    (timed : Schedule.IsTimed timer.delay horizon ((now, call) :: rest))
    (apart : ∀ due label, timer.pending? = some (due, label) → now ≠ due) :
    countdown.run horizon timer ((now, call) :: rest) =
      let others := countdown.run horizon ⟨timer.delay, call.starts? timer.delay now⟩ rest
      ⟨(timer.pending?.filter (runsBefore horizon ((now, call) :: rest))).toList ++ others.ran,
        timer.answer? now call :: others.answers⟩ := by
  obtain ⟨ran, passed⟩ := elapse_eq timed apart
  cases call with
  | arm label => simp only [Countdown.run, Countdown.call, countdown, ran, passed, arm, TimerCall.starts?, answer?]
  | cancel =>
    simp only [Countdown.run, Countdown.call, countdown, ran, passed, cancel, TimerCall.starts?, answer?, Option.isSome_filter]

/-- The callback that is pending at the beginning runs if it may, and then those that calls start. -/
theorem ran_run {schedule : Schedule Label} {timer : DebounceTimer Label}
    (timed : Schedule.IsTimed timer.delay horizon schedule)
    (apart : ∀ due label, timer.pending? = some (due, label) → ∀ entry ∈ schedule.head?, entry.1 ≠ due) :
    (countdown.run horizon timer schedule).ran =
      (timer.pending?.filter (runsBefore horizon schedule)).toList ++
        schedule.tails.filterMap (survivor? timer.delay horizon) := by
  induction schedule generalizing timer with
  | nil =>
    obtain ⟨delay, pending?⟩ := timer
    cases pending? with
    | none => rfl
    | some callback =>
      obtain ⟨due, label⟩ := callback
      by_cases isDue : due ≤ horizon <;>
        simp [Countdown.run, countdown, elapse, Option.filter_some, runsBefore, survivor?, isDue]
  | cons entry rest ih =>
    obtain ⟨now, call⟩ := entry
    have others := @ih ⟨timer.delay, call.starts? timer.delay now⟩ timed.tail fun _ _ starts => timed.next starts
    rw [run_cons timed fun due label pending => apart due label pending _ rfl, List.tails_cons, List.filterMap_cons, survivor?]
    simp only [others]
    cases (call.starts? timer.delay now).filter (runsBefore horizon rest) <;> rfl

/-- The answer tells whether the call before has armed the timer, and its callback has not run. -/
theorem answers_run {schedule before after : Schedule Label} {timer : DebounceTimer Label}
    (timed : Schedule.IsTimed timer.delay horizon schedule)
    (apart : ∀ due label, timer.pending? = some (due, label) → ∀ entry ∈ schedule.head?, entry.1 ≠ due)
    (split : schedule = before ++ (now, .cancel) :: after) :
    ∃ answer, (countdown.run horizon timer schedule).answers[before.length]? = some (some answer) ∧
      (answer = true ↔ (before = [] ∧ ∃ due label, timer.pending? = some (due, label) ∧ now < due) ∨
        ∃ earlier time label, before = earlier ++ [(time, .arm label)] ∧ now < time + timer.delay) := by
  subst split
  induction before generalizing timer with
  | nil =>
    rw [List.nil_append, run_cons timed fun due label pending => apart due label pending _ rfl]
    refine ⟨timer.pending?.any fun callback => now < callback.1, rfl, ?_⟩
    rcases timer.pending? with _ | ⟨due, label⟩ <;> simp
  | cons entry rest ih =>
    obtain ⟨time, call⟩ := entry
    obtain ⟨answer, isAnswer, exact⟩ :=
      @ih ⟨timer.delay, call.starts? timer.delay time⟩ timed.tail fun _ _ starts => timed.next starts
    rw [List.cons_append] at timed ⊢
    rw [run_cons timed fun due label pending => apart due label pending _ rfl]
    refine ⟨answer, isAnswer, exact.trans ?_⟩
    simp only [reduceCtorEq, false_and, false_or]
    constructor
    · rintro (⟨rfl, due, label, starts, waits⟩ | ⟨earlier, last, label, rfl, waits⟩)
      · cases call with
        | cancel => cases starts
        | arm other =>
          cases starts
          exact ⟨[], time, label, rfl, waits⟩
      · exact ⟨(time, call) :: earlier, last, label, rfl, waits⟩
    · rintro ⟨earlier, last, label, isLast, waits⟩
      cases earlier with
      | nil =>
        cases isLast
        exact .inl ⟨rfl, _, label, rfl, waits⟩
      | cons first earlier =>
        obtain ⟨rfl, rfl⟩ := List.cons.inj isLast
        exact .inr ⟨earlier, last, label, rfl, waits⟩

/-- Exactly the callbacks run that no other call comes before within the delay, each once, at the time of its call plus the
delay; to cancel gives true exactly where the call before has armed the timer and its callback has not run. A timer that
starts a task for every call to arm it does the same. -/
theorem run_exact (delay horizon : Nat) (schedule : Schedule Label) (timed : schedule.IsTimed delay horizon) :
    (countdown.run horizon ⟨delay, none⟩ schedule).ran = schedule.tails.filterMap (survivor? delay horizon) ∧
      (∀ before now after, schedule = before ++ (now, .cancel) :: after → ∃ answer,
        (countdown.run horizon ⟨delay, none⟩ schedule).answers[before.length]? = some (some answer) ∧
          (answer = true ↔ ∃ earlier time label, before = earlier ++ [(time, .arm label)] ∧ now < time + delay)) ∧
      TaskTimer.countdown.run horizon { delay } schedule = countdown.run horizon ⟨delay, none⟩ schedule := by
  let start : DebounceTimer Label := ⟨delay, none⟩
  refine ⟨?_, fun before now after split => ?_, ?_⟩
  · exact @ran_run _ horizon schedule start timed nofun
  · obtain ⟨answer, isAnswer, exact⟩ := @answers_run _ horizon now schedule before after start timed nofun split
    exact ⟨answer, isAnswer, by simpa using exact⟩
  · exact TaskTimer.simulates.run horizon (.idle (List.forall_mem_nil _) (by rintro _ ⟨⟩)) schedule

/-- Three calls in a row, a callback that is waited for and cancelled, one that runs, and calls to cancel in vain. -/
def busySchedule : Schedule Nat :=
  [(0, .arm 1), (30, .arm 2), (40, .arm 3), (141, .cancel), (150, .arm 4), (160, .cancel), (160, .cancel), (170, .arm 5)]

theorem run_busySchedule : Schedule.IsTimed 100 300 busySchedule ∧
    (countdown.run 300 ⟨100, none⟩ busySchedule).ran = [(140, 3), (270, 5)] ∧
    (∃ answer, (countdown.run 300 ⟨100, none⟩ busySchedule).answers[5]? = some (some answer) ∧ answer = true) ∧
    TaskTimer.countdown.run 300 { delay := 100 } busySchedule = countdown.run 300 ⟨100, none⟩ busySchedule := by
  have timed : Schedule.IsTimed 100 300 busySchedule := ⟨by decide, by decide, by simp [busySchedule]⟩
  obtain ⟨ran, answers, same⟩ := run_exact 100 300 busySchedule timed
  obtain ⟨answer, isAnswer, exact⟩ := answers (busySchedule.take 5) 160 (busySchedule.drop 6) rfl
  exact ⟨timed, ran, ⟨answer, isAnswer, exact.mpr ⟨busySchedule.take 4, 150, 4, rfl, by decide⟩⟩, same⟩

end DebounceTimer

end SiteQuery.Watch
