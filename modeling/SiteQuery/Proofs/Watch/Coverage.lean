import SiteQuery.Proofs.Watch.Reruns

/-!
The loop misses no page.

A dispatch takes two steps, and others may go on between them; actions that wait may be lost, the oldest first, and the
loop hears of it before it goes on. Every page of the store is registered, or the loop is still to hear of it:
`covered_run`. So all pages are registered where the loop has nothing left to hear: `registered_of_nothing_left`.
-/

namespace SiteQuery.Watch

namespace Store

/-- What the receiver has before it, the last action first. -/
def waiting (store : Store) (receiver : Receiver) : List Action :=
  store.sent.take (store.sent.length - receiver.position)

/-- The next that a receiver hears if it has lost so many of the actions before it, the oldest. -/
def hear? (store : Store) (lost : Nat) (receiver : Receiver) : Option (Received × Receiver) :=
  match lost with
  | 0 => (store.waiting receiver).getLast?.map fun action => (.action action, ⟨receiver.position + 1⟩)
  | more + 1 =>
    if more < (store.waiting receiver).length then
      some (.lagged (more + 1), ⟨receiver.position + (more + 1)⟩)
    else none

theorem length_waiting (store : Store) (receiver : Receiver) :
    (store.waiting receiver).length = store.sent.length - receiver.position := by
  rw [waiting, List.length_take]
  omega

theorem getLast?_waiting (store : Store) (receiver : Receiver) (behind : receiver.position < store.sent.length) :
    (store.waiting receiver).getLast? = store.sent[store.sent.length - 1 - receiver.position]? := by
  have index : store.sent.length - receiver.position - 1 = store.sent.length - 1 - receiver.position := by omega
  have inside : store.sent.length - receiver.position - 1 < store.sent.length - receiver.position := by omega
  rw [List.getLast?_eq_getElem?, length_waiting, waiting, List.getElem?_take_of_lt inside, index]

/-- The channel loses what is above its capacity, and nothing else. -/
theorem receive?_eq_hear? (store : Store) (receiver : Receiver) :
    store.receive? receiver = store.hear? (store.sent.length - receiver.position - capacity) receiver := by
  simp only [receive?]
  split
  · rename_i caughtUp
    have nothing : store.waiting receiver = [] := by
      rw [← List.length_eq_zero_iff, length_waiting]
      omega
    have noLoss : store.sent.length - receiver.position - capacity = 0 := by omega
    rw [noLoss, hear?, nothing]
    rfl
  · split
    · rename_i _ lagging
      obtain ⟨more, isLost⟩ : ∃ more, store.sent.length - receiver.position - capacity = more + 1 :=
        Nat.exists_eq_succ_of_ne_zero (by omega)
      have sameCount : store.sent.length - capacity - receiver.position = more + 1 := by omega
      have samePosition : store.sent.length - capacity = receiver.position + (more + 1) := by omega
      have inside : more < (store.waiting receiver).length := by
        rw [length_waiting]
        omega
      rw [isLost, hear?, if_pos inside, sameCount, samePosition]
    · rename_i behind _
      have noLoss : store.sent.length - receiver.position - capacity = 0 := by omega
      rw [noLoss, hear?, getLast?_waiting store receiver (by omega)]

theorem waiting_eq_nil_of_receive? {store : Store} {receiver : Receiver} (nothing : store.receive? receiver = none) :
    store.waiting receiver = [] := by
  rw [receive?_eq_hear?] at nothing
  cases lost : store.sent.length - receiver.position - capacity with
  | zero =>
    rw [lost, hear?, Option.map_eq_none_iff, List.getLast?_eq_none_iff] at nothing
    exact nothing
  | succ more =>
    have inside : more < (store.waiting receiver).length := by
      rw [length_waiting]
      omega
    rw [lost, hear?, if_pos inside] at nothing
    cases nothing

/-- The oldest action goes, or it is lost with others. -/
theorem hear?_eq_some {store : Store} {lost : Nat} {receiver next : Receiver} {received : Received}
    (heard : store.hear? lost receiver = some (received, next)) :
    next.position ≤ store.sent.length ∧
      ((∃ action, received = .action action ∧ store.waiting receiver = store.waiting next ++ [action]) ∨
        ∃ missed, received = .lagged missed) := by
  cases lost with
  | zero =>
    rw [hear?, Option.map_eq_some_iff] at heard
    obtain ⟨action, isLast, isReceived⟩ := heard
    cases isReceived
    have rest : (store.waiting receiver).dropLast = store.waiting ⟨receiver.position + 1⟩ := by
      rw [List.dropLast_eq_take, length_waiting, waiting, waiting, List.take_take]
      congr 1
      dsimp only
      omega
    have notNil : store.waiting receiver ≠ [] := by
      intro isNil
      rw [isNil] at isLast
      cases isLast
    have length := List.length_pos_of_ne_nil notNil
    rw [length_waiting] at length
    have behind : receiver.position + 1 ≤ store.sent.length := by omega
    refine ⟨behind, .inl ⟨action, rfl, ?_⟩⟩
    rw [← rest]
    exact (List.dropLast_append_getLast? action isLast).symm
  | succ more =>
    rw [hear?, Option.ite_none_right_eq_some, length_waiting] at heard
    obtain ⟨inside, isReceived⟩ := heard
    cases isReceived
    have behind : receiver.position + (more + 1) ≤ store.sent.length := by omega
    exact ⟨behind, .inr ⟨_, rfl⟩⟩

theorem waiting_send {store : Store} {receiver : Receiver} (behind : receiver.position ≤ store.sent.length)
    (action : Action) : (store.send action).waiting receiver = action :: store.waiting receiver := by
  have length : (store.send action).sent.length - receiver.position = store.sent.length - receiver.position + 1 := by
    simp only [send, List.length_cons]
    omega
  rw [waiting, length]
  rfl

end Store

/-- A store whose dispatches take their time, and a loop over its actions. -/
structure Traffic where
  store : Store := {}
  /-- Dispatches that have not changed the state yet. -/
  begun : List Action := []
  /-- Those that have, and are still to send their action. -/
  applied : List Action := []
  loop? : Option Loop := none
  /-- What the loop has received and not reacted to. -/
  heard? : Option Received := none
  spawned : List Reaction := []
deriving DecidableEq

namespace Traffic

inductive Event where
  | begin (action : Action)
  | apply (action : Action)
  | send (action : Action)
  | subscribe
  | start
  | receive (lost : Nat)
  | react
  | change (path : Path)
  | takeChange
  | close

/-- The loop, while it waits for something to happen. -/
def idle? (traffic : Traffic) : Option Loop :=
  traffic.loop?.filter fun loop => loop.isRunning && loop.hasStarted && traffic.heard?.isNone

def step (traffic : Traffic) : Event → Option Traffic
  | .begin action => some { traffic with begun := action :: traffic.begun }
  | .apply action =>
    if action ∈ traffic.begun then
      some { traffic with
        store := traffic.store.apply action
        begun := traffic.begun.erase action
        applied := action :: traffic.applied }
    else none
  | .send action =>
    if action ∈ traffic.applied then
      some { traffic with store := traffic.store.send action, applied := traffic.applied.erase action }
    else none
  | .subscribe => if traffic.loop?.isSome then none else some { traffic with loop? := some (.ofStore traffic.store) }
  | .start => do
    let loop ← traffic.loop?.filter fun loop => loop.isRunning && !loop.hasStarted
    let (loop, reactions) := loop.start traffic.store
    return { traffic with loop? := some loop, spawned := traffic.spawned ++ reactions }
  | .receive lost => do
    let loop ← traffic.idle?
    let (received, receiver) ← traffic.store.hear? lost loop.receiver
    return { traffic with loop? := some { loop with receiver }, heard? := some received }
  | .react => do
    let received ← traffic.heard?
    return { traffic with heard? := none, spawned := traffic.spawned ++ Loop.reactTo traffic.store received }
  | .change path => do
    let loop ← traffic.loop?.filter (·.isOpen)
    return { traffic with loop? := some { loop with changes := loop.changes ++ [path] } }
  | .takeChange => do
    let loop ← traffic.idle?
    let (loop, reactions) ← loop.takeChange?
    return { traffic with loop? := some loop, spawned := traffic.spawned ++ reactions }
  | .close => do
    let loop ← traffic.loop?
    return { traffic with loop? := some { loop with isOpen := false } }

def run (traffic : Traffic) (events : List Event) : Option Traffic := events.foldlM step traffic

/-- The page is registered, or the loop is still to hear of it. -/
inductive Covers (traffic : Traffic) (loop : Loop) (page : Page) : Prop
  | spawned (isSpawned : .register page.component ∈ traffic.spawned)
  | applied (isApplied : .upsertPage page ∈ traffic.applied)
  | waiting (isWaiting : .upsertPage page ∈ traffic.store.waiting loop.receiver)
  | heard (isHeard : traffic.heard? = some (.action (.upsertPage page)))
  | lagged {missed : Nat} (isHeard : traffic.heard? = some (.lagged missed))

/-- What holds of a loop: it has not received more than was sent, and once it has started every page is covered. -/
structure Follows (traffic : Traffic) (loop : Loop) : Prop where
  behind : loop.receiver.position ≤ traffic.store.sent.length
  covers : loop.hasStarted = true → ∀ page ∈ traffic.store.state.pages, traffic.Covers loop page

def Covered (traffic : Traffic) : Prop := ∀ loop, traffic.loop? = some loop → traffic.Follows loop

end Traffic

theorem StoreState.upsert_or_mem_of_mem_apply {state : StoreState} {action : Action} {page : Page}
    (member : page ∈ (state.apply action).pages) : action = .upsertPage page ∨ page ∈ state.pages := by
  cases action with
  | upsertPage other =>
    rcases Page.eq_or_mem_of_mem_insert member with rfl | old
    · exact .inl rfl
    · exact .inr old
  | addComponent | setQuery | addDependency | removeDependencies | setStage => exact .inr member

namespace Loop

theorem mem_knownPages {store : Store} {page : Page} (member : page ∈ store.state.pages) :
    .register page.component ∈ knownPages store :=
  List.mem_map_of_mem member

theorem takeChange?_eq_some {loop next : Loop} {reactions : List Reaction}
    (taken : loop.takeChange? = some (next, reactions)) :
    next.receiver = loop.receiver ∧ next.hasStarted = loop.hasStarted := by
  unfold takeChange? at taken
  cases waiting : loop.changes with
  | nil =>
    rw [waiting, Option.ite_none_left_eq_some] at taken
    obtain ⟨_, isNext⟩ := taken
    cases isNext
    exact ⟨rfl, rfl⟩
  | cons path rest =>
    rw [waiting] at taken
    cases taken
    exact ⟨rfl, rfl⟩

end Loop

namespace Traffic

variable {traffic after : Traffic} {loop next : Loop} {page : Page} {event : Event}
  {reactions : List Reaction}

theorem idle?_eq_some (idle : traffic.idle? = some loop) :
    traffic.loop? = some loop ∧ traffic.heard? = none ∧ loop.isRunning = true ∧ loop.hasStarted = true := by
  simp only [idle?, Option.filter_eq_some_iff, Bool.and_eq_true, Option.isNone_iff_eq_none] at idle
  exact ⟨idle.1, idle.2.2, idle.2.1⟩

/-- What was on its way may move on towards the loop. -/
theorem Covers.mono (covers : traffic.Covers loop page) (spawned : traffic.spawned ⊆ after.spawned)
    (applied : ∀ action ∈ traffic.applied, action ∈ after.applied ∨ action ∈ after.store.waiting next.receiver)
    (waiting : traffic.store.waiting loop.receiver ⊆ after.store.waiting next.receiver)
    (heard : after.heard? = traffic.heard?) : after.Covers next page := by
  cases covers with
  | spawned isSpawned => exact .spawned (spawned isSpawned)
  | applied isApplied => exact (applied _ isApplied).elim .applied .waiting
  | waiting isWaiting => exact .waiting (waiting isWaiting)
  | heard isHeard => exact .heard (heard.trans isHeard)
  | lagged isHeard => exact .lagged (heard.trans isHeard)

/-- The loop is covered where nothing has changed for its pages. -/
theorem Follows.congr (follows : traffic.Follows loop) (store : after.store = traffic.store)
    (receiver : next.receiver = loop.receiver) (started : next.hasStarted = loop.hasStarted)
    (spawned : traffic.spawned ⊆ after.spawned) (applied : after.applied = traffic.applied)
    (heard : after.heard? = traffic.heard?) : after.Follows next := by
  constructor
  · rw [store, receiver]
    exact follows.behind
  · intro hasStarted page member
    rw [store] at member
    refine (follows.covers (started ▸ hasStarted) page member).mono spawned (fun action isApplied => ?_) ?_ heard
    · exact .inl (applied ▸ isApplied)
    · rw [store, receiver]
      exact List.Subset.refl _

theorem Follows.apply (follows : traffic.Follows loop) {action : Action}
    (step : traffic.step (.apply action) = some after) : after.Follows loop := by
  rw [Traffic.step, Option.ite_none_right_eq_some] at step
  obtain ⟨_, isAfter⟩ := step
  cases isAfter
  refine ⟨follows.behind, fun hasStarted page member => ?_⟩
  rcases StoreState.upsert_or_mem_of_mem_apply member with rfl | old
  · exact .applied List.mem_cons_self
  · exact (follows.covers hasStarted page old).mono (List.Subset.refl _)
      (fun _ isApplied => .inl (List.mem_cons_of_mem _ isApplied)) (List.Subset.refl _) rfl

theorem Follows.send (follows : traffic.Follows loop) {action : Action}
    (step : traffic.step (.send action) = some after) : after.Follows loop := by
  rw [Traffic.step, Option.ite_none_right_eq_some] at step
  obtain ⟨_, isAfter⟩ := step
  cases isAfter
  have grown := Store.waiting_send follows.behind action
  refine ⟨Nat.le_succ_of_le follows.behind, fun hasStarted page member => ?_⟩
  refine (follows.covers hasStarted page member).mono (List.Subset.refl _) (fun other isApplied => ?_) ?_ rfl
  · by_cases isSent : other = action
    · refine .inr ?_
      rw [grown, isSent]
      exact List.mem_cons_self
    · exact .inl ((List.mem_erase_of_ne isSent).mpr isApplied)
  · rw [grown]
    exact List.subset_cons_self _ _

/-- A loop that starts registers all pages that there are. -/
theorem Follows.start (follows : traffic.Follows loop) :
    ({ traffic with
      loop? := some (loop.start traffic.store).1
      spawned := traffic.spawned ++ (loop.start traffic.store).2 } : Traffic).Follows (loop.start traffic.store).1 :=
  ⟨follows.behind, fun _ _ member => .spawned (List.mem_append_right _ (Loop.mem_knownPages member))⟩

/-- What is received is at hand, and may be that something was lost. -/
theorem Follows.receive (follows : traffic.Follows loop) (nothing : traffic.heard? = none) {lost : Nat}
    {received : Received} {receiver : Receiver}
    (heard : traffic.store.hear? lost loop.receiver = some (received, receiver)) :
    ({ traffic with loop? := some { loop with receiver }, heard? := some received } : Traffic).Follows
      { loop with receiver } := by
  obtain ⟨behind, isReceived⟩ := Store.hear?_eq_some heard
  refine ⟨behind, fun hasStarted page member => ?_⟩
  rcases isReceived with ⟨action, rfl, waiting⟩ | ⟨missed, rfl⟩
  · cases follows.covers hasStarted page member with
    | spawned isSpawned => exact .spawned isSpawned
    | applied isApplied => exact .applied isApplied
    | waiting isWaiting =>
      rw [waiting, List.mem_append, List.mem_singleton] at isWaiting
      rcases isWaiting with still | rfl
      · exact .waiting still
      · exact .heard rfl
    | heard isHeard => exact absurd (nothing.symm.trans isHeard) nofun
    | lagged isHeard => exact absurd (nothing.symm.trans isHeard) nofun
  · exact .lagged rfl

/-- The loop registers the page that it heard of, or all pages that there are by now. -/
theorem Follows.react (follows : traffic.Follows loop) {received : Received} (heard : traffic.heard? = some received) :
    ({ traffic with
      heard? := none
      spawned := traffic.spawned ++ Loop.reactTo traffic.store received } : Traffic).Follows loop := by
  refine ⟨follows.behind, fun hasStarted page member => ?_⟩
  cases follows.covers hasStarted page member with
  | spawned isSpawned => exact .spawned (List.mem_append_left _ isSpawned)
  | applied isApplied => exact .applied isApplied
  | waiting isWaiting => exact .waiting isWaiting
  | heard isHeard =>
    cases heard.symm.trans isHeard
    exact .spawned (List.mem_append_right _ (List.mem_singleton.mpr rfl))
  | lagged isHeard =>
    cases heard.symm.trans isHeard
    exact .spawned (List.mem_append_right _ (Loop.mem_knownPages member))

/-- The loop has no part in what becomes of an action in the store. -/
theorem loop?_step {action : Action} (step : traffic.step event = some after)
    (inStore : event = .apply action ∨ event = .send action) : after.loop? = traffic.loop? := by
  rcases inStore with rfl | rfl <;>
    (rw [Traffic.step, Option.ite_none_right_eq_some] at step; cases step.2; rfl)

theorem covered_step (step : traffic.step event = some after) (covered : traffic.Covered) : after.Covered := by
  intro loop watched
  cases event with
  | begin action =>
    cases step
    exact (covered loop watched).congr rfl rfl rfl (List.Subset.refl _) rfl rfl
  | apply action =>
    rw [loop?_step step (.inl rfl)] at watched
    exact (covered loop watched).apply step
  | send action =>
    rw [loop?_step step (.inr rfl)] at watched
    exact (covered loop watched).send step
  | subscribe =>
    rw [Traffic.step, Option.ite_none_left_eq_some] at step
    obtain ⟨_, isAfter⟩ := step
    cases isAfter
    cases watched
    exact ⟨Nat.le_refl _, nofun⟩
  | start =>
    simp only [Traffic.step, Option.bind_eq_bind, Option.bind_eq_some_iff, Option.filter_eq_some_iff, Option.pure_def,
      Option.some.injEq] at step
    obtain ⟨before, ⟨wasWatched, _⟩, rfl⟩ := step
    cases watched
    exact (covered before wasWatched).start
  | receive lost =>
    simp only [Traffic.step, Option.bind_eq_bind, Option.bind_eq_some_iff, Option.pure_def, Option.some.injEq,
      Prod.exists] at step
    obtain ⟨before, idle, received, receiver, heard, rfl⟩ := step
    cases watched
    obtain ⟨wasWatched, nothing, _⟩ := idle?_eq_some idle
    exact (covered before wasWatched).receive nothing heard
  | react =>
    simp only [Traffic.step, Option.bind_eq_bind, Option.bind_eq_some_iff, Option.pure_def, Option.some.injEq] at step
    obtain ⟨received, heard, rfl⟩ := step
    exact (covered loop watched).react heard
  | change path =>
    simp only [Traffic.step, Option.bind_eq_bind, Option.bind_eq_some_iff, Option.filter_eq_some_iff, Option.pure_def,
      Option.some.injEq] at step
    obtain ⟨before, ⟨wasWatched, _⟩, rfl⟩ := step
    cases watched
    exact (covered before wasWatched).congr rfl rfl rfl (List.Subset.refl _) rfl rfl
  | takeChange =>
    simp only [Traffic.step, Option.bind_eq_bind, Option.bind_eq_some_iff, Option.pure_def, Option.some.injEq,
      Prod.exists] at step
    obtain ⟨before, idle, next, reactions, taken, rfl⟩ := step
    cases watched
    obtain ⟨sameReceiver, sameStart⟩ := Loop.takeChange?_eq_some taken
    exact (covered before (idle?_eq_some idle).1).congr rfl sameReceiver sameStart (List.subset_append_left _ _) rfl rfl
  | close =>
    simp only [Traffic.step, Option.bind_eq_bind, Option.bind_eq_some_iff, Option.pure_def, Option.some.injEq] at step
    obtain ⟨before, wasWatched, rfl⟩ := step
    cases watched
    exact (covered before wasWatched).congr rfl rfl rfl (List.Subset.refl _) rfl rfl

theorem covered_run {events : List Event} (ran : traffic.run events = some after) (covered : traffic.Covered) :
    after.Covered := by
  induction events generalizing traffic with
  | nil =>
    cases ran
    exact covered
  | cons event rest ih =>
    obtain ⟨next, step, others⟩ := Option.bind_eq_some_iff.mp ran
    exact ih others (covered_step step covered)

/-- A dispatch that nothing comes between. -/
theorem run_dispatch (traffic : Traffic) (action : Action) :
    traffic.run [.begin action, .apply action, .send action] =
      some { traffic with store := traffic.store.dispatch action } := by
  simp [run, step, Store.dispatch]

/-- What the loop does in one step happens here. -/
theorem exists_run_of_step? (taken : loop.step? traffic.store = some (next, reactions))
    (watched : traffic.loop? = some loop) (nothing : traffic.heard? = none) :
    ∃ events, traffic.run events =
      some { traffic with loop? := some next, spawned := traffic.spawned ++ reactions } := by
  rw [Loop.step?, Option.ite_none_left_eq_some, Bool.not_eq_true', Bool.not_eq_false] at taken
  obtain ⟨running, taken⟩ := taken
  by_cases started : loop.hasStarted = true
  · have idle : traffic.idle? = some loop := by
      simp [idle?, watched, nothing, running, started]
    simp only [started, Bool.not_true, Bool.false_eq_true, if_false] at taken
    cases fromChannel : loop.takeAction? traffic.store with
    | some result =>
      rw [fromChannel, Option.orElse_some] at taken
      cases taken
      obtain ⟨⟨received, receiver⟩, heard, isNext⟩ := Option.map_eq_some_iff.mp fromChannel
      cases isNext
      rw [Store.receive?_eq_hear?] at heard
      refine ⟨[.receive (traffic.store.sent.length - loop.receiver.position - Store.capacity), .react], ?_⟩
      simp [run, step, idle, heard, nothing]
    | none =>
      rw [fromChannel, Option.orElse_none] at taken
      refine ⟨[.takeChange], ?_⟩
      simp [run, step, idle, taken]
  · rw [Bool.not_eq_true] at started
    simp only [started, Bool.not_false, if_true, Option.some.injEq] at taken
    refine ⟨[.start], ?_⟩
    simp [run, step, watched, running, started, taken, Option.filter_some]

theorem covered_ofStore (store : Store) : ({ store } : Traffic).Covered := nofun

/-- Every page is registered where a loop that has started has reacted to all that it received, has nothing before it in
the channel, and no dispatch stands between the state and the channel. Pages may have come before the loop or with it,
their actions may have been lost, and any other dispatch may have begun. -/
theorem registered_of_nothing_left {store : Store} {events : List Event} (ran : run { store } events = some after)
    (watched : after.loop? = some loop) (started : loop.hasStarted = true) (returned : after.applied = [])
    (received : after.store.receive? loop.receiver = none) (reacted : after.heard? = none) :
    ∀ page ∈ after.store.state.pages, .register page.component ∈ after.spawned := by
  intro page member
  have follows := covered_run ran (covered_ofStore store) loop watched
  cases follows.covers started page member with
  | spawned isSpawned => exact isSpawned
  | applied isApplied => simp [returned] at isApplied
  | waiting isWaiting => simp [Store.waiting_eq_nil_of_receive? received] at isWaiting
  | heard isHeard => exact absurd (reacted.symm.trans isHeard) nofun
  | lagged isHeard => exact absurd (reacted.symm.trans isHeard) nofun

/-! Before the loop, a page and half of a second one; while it runs, a third one, and the first one again under another
component. Of these actions the loop receives the last one only. -/

def home (component : String) : Page := ⟨"/", ⟨component⟩⟩

def about : Page := ⟨"/about", ⟨"/p/about.js"⟩⟩

def news : Page := ⟨"/news", ⟨"/p/news.js"⟩⟩

def dispatched (page : Page) : List Event :=
  [.begin (.upsertPage page), .apply (.upsertPage page), .send (.upsertPage page)]

def lossyEvents : List Event :=
  dispatched (home "/p/a.js") ++ [.begin (.upsertPage about), .apply (.upsertPage about), .subscribe, .start,
    .send (.upsertPage about)] ++ dispatched news ++ dispatched (home "/p/b.js") ++
    [.receive 2, .react, .receive 0, .react]

theorem registered_of_lossyEvents : ∃ after, run {} lossyEvents = some after ∧
    after.store.state.pages = [home "/p/b.js", about, news] ∧
    ∀ page ∈ after.store.state.pages, .register page.component ∈ after.spawned := by
  have isRun : ∃ after, run {} lossyEvents = some after ∧ after.store.state.pages = [home "/p/b.js", about, news] ∧
      after.loop? = some { receiver := ⟨4⟩, hasStarted := true } ∧ after.applied = [] ∧
      after.store.receive? ⟨4⟩ = none ∧ after.heard? = none := by
    refine ⟨_, rfl, ?_⟩
    decide +kernel
  obtain ⟨after, ran, pages, watched, returned, received, reacted⟩ := isRun
  exact ⟨after, ran, pages, registered_of_nothing_left ran watched rfl returned received reacted⟩

end Traffic

end SiteQuery.Watch
