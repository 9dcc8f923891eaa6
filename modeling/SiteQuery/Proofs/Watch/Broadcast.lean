import SiteQuery.Proofs.Watch.Cells
import SiteQuery.Proofs.Watch.Coverage

/-!
What can be told from the actions that a store sends.

To dispatch is to change the state and then to send the action, and the dispatches of other callers may come between the
two. So an action may be sent before one that had changed the state earlier, which it has overtaken. Who receives all
actions and applies them again gets the content of every cell in which no action clashes with one that it has
overtaken: `replayed_of_run`. For other cells it may be another one: `not_replayed`.
-/

namespace SiteQuery.Watch

def Received.action? : Received → Option Action
  | .action sent => some sent
  | .lagged _ => none

/-- A store that callers dispatch to at the same time, and one who receives. -/
structure Broadcast where
  store : Store
  receiver : Receiver
  received : List Received := []
  /-- Each caller that has changed the state and is still to send its action, in the order of the changes. -/
  unsent : List (Nat × Action) := []
  /-- All actions that have changed the state, in that order. -/
  applied : List Action := []
  /-- Pairs of actions, of which the first one has changed the state first and the second one was sent first. -/
  overtaken : List (Action × Action) := []
deriving DecidableEq

namespace Broadcast

inductive Event where
  | apply (caller : Nat) (action : Action)
  | send (caller : Nat)
  | receive

/-- Whoever receives what is sent from now on. -/
def ofStore (store : Store) : Broadcast := { store, receiver := store.subscribe }

/-- A caller has one dispatch at a time. -/
def step (broadcast : Broadcast) : Event → Option Broadcast
  | .apply caller action =>
    if broadcast.unsent.any (·.1 == caller) then none
    else some { broadcast with
      store := broadcast.store.apply action
      unsent := broadcast.unsent ++ [(caller, action)]
      applied := broadcast.applied ++ [action] }
  | .send caller =>
    let before := broadcast.unsent.takeWhile (·.1 != caller)
    match broadcast.unsent.dropWhile (·.1 != caller) with
    | [] => none
    | (_, action) :: rest => some { broadcast with
      store := broadcast.store.send action
      unsent := before ++ rest
      overtaken := broadcast.overtaken ++ before.map fun (_, other) => (other, action) }
  | .receive => do
    let (received, receiver) ← broadcast.store.receive? broadcast.receiver
    return { broadcast with receiver, received := broadcast.received ++ [received] }

def run (broadcast : Broadcast) (events : List Event) : Option Broadcast := events.foldlM step broadcast

/-- The actions that were sent, to one who has missed none of them. -/
def stream (broadcast : Broadcast) : List Action :=
  broadcast.received.filterMap Received.action? ++ (broadcast.store.waiting broadcast.receiver).reverse

/-- The actions in the order in which they are sent, if the callers go on in the order of their changes. -/
def order (broadcast : Broadcast) : List Action := broadcast.stream ++ broadcast.unsent.map (·.2)

def MissedNone (broadcast : Broadcast) : Prop := ∀ received ∈ broadcast.received, received.action?.isSome = true

/-- No action that has overtaken another one clashes with it in the cell. -/
def IsClear (broadcast : Broadcast) (cell : Cell) : Prop :=
  ∀ pair ∈ broadcast.overtaken, ¬ pair.1.Clashes pair.2 cell

/-- What holds of a receiver that has missed no action since the state was `start`. -/
structure Follows (broadcast : Broadcast) (start : StoreState) : Prop where
  behind : broadcast.receiver.position ≤ broadcast.store.sent.length
  state : broadcast.store.state = broadcast.applied.foldl StoreState.apply start
  perm : broadcast.order.Perm broadcast.applied
  kept : broadcast.overtaken = [] → broadcast.order = broadcast.applied
  replayed : ∀ cell, broadcast.IsClear cell →
    (broadcast.order.foldl StoreState.apply start).content cell = broadcast.store.state.content cell

end Broadcast

namespace StoreState

variable {state : StoreState} {cell : Cell}

theorem InOrder.foldl_apply (ordered : state.InOrder) (actions : List Action) :
    (actions.foldl StoreState.apply state).InOrder := by
  induction actions generalizing state with
  | nil => exact ordered
  | cons action rest ih => exact ih (ordered.apply action)

theorem content_foldl_apply (ordered : state.InOrder) (actions : List Action) (cell : Cell) :
    (actions.foldl apply state).content cell =
      actions.foldl (fun content action => action.write cell content) (state.content cell) := by
  induction actions generalizing state with
  | nil => rfl
  | cons action rest ih => rw [List.foldl_cons, List.foldl_cons, ih (ordered.apply action), content_apply ordered]

end StoreState

/-- An action may be applied before others that it clashes with nowhere in the cell. -/
theorem Action.foldl_write_moved {cell : Cell} {action : Action} {before : List Action}
    (clear : ∀ other ∈ before, ¬ other.Clashes action cell) (content : cell.Content) :
    (before ++ [action]).foldl (fun content action => action.write cell content) content =
      (action :: before).foldl (fun content action => action.write cell content) content := by
  induction before generalizing content with
  | nil => rfl
  | cons first rest ih =>
    obtain ⟨ofFirst, ofRest⟩ := List.forall_mem_cons.mp clear
    have swapped := (commutes_iff first action cell).mpr ofFirst content
    rw [List.cons_append, List.foldl_cons, ih ofRest, List.foldl_cons, swapped, List.foldl_cons, List.foldl_cons]

namespace Broadcast

variable {broadcast after : Broadcast} {start : StoreState} {event : Event}

theorem follows_ofStore (store : Store) : (ofStore store).Follows store.state := by
  have none : (ofStore store).order = [] := by simp [order, stream, ofStore, Store.waiting, Store.subscribe]
  refine ⟨Nat.le_refl _, rfl, ?_, fun _ => none, fun cell _ => ?_⟩
  · rw [none]
    exact .nil
  · rw [none]
    rfl

theorem Follows.apply (follows : broadcast.Follows start) (ordered : start.InOrder) (caller : Nat) (action : Action) :
    ({ broadcast with
      store := broadcast.store.apply action
      unsent := broadcast.unsent ++ [(caller, action)]
      applied := broadcast.applied ++ [action] } : Broadcast).Follows start := by
  have order : order { broadcast with
      store := broadcast.store.apply action
      unsent := broadcast.unsent ++ [(caller, action)]
      applied := broadcast.applied ++ [action] } = broadcast.order ++ [action] := by
    simp [Broadcast.order, stream, Store.waiting, Store.apply]
  refine ⟨follows.behind, ?_, ?_, fun none => ?_, fun cell clear => ?_⟩
  · rw [List.foldl_append, ← follows.state]
    rfl
  · rw [order]
    exact follows.perm.append_right [action]
  · rw [order, follows.kept none]
  · have inState : broadcast.store.state.InOrder := follows.state ▸ ordered.foldl_apply broadcast.applied
    have before := follows.replayed cell clear
    rw [order, List.foldl_append]
    simp only [List.foldl_cons, List.foldl_nil, Store.apply]
    rw [StoreState.content_apply (ordered.foldl_apply _), StoreState.content_apply inState, before]

theorem Follows.send (follows : broadcast.Follows start) (ordered : start.InOrder) {caller : Nat} {action : Action}
    {before rest : List (Nat × Action)} (split : broadcast.unsent = before ++ (caller, action) :: rest) :
    ({ broadcast with
      store := broadcast.store.send action
      unsent := before ++ rest
      overtaken := broadcast.overtaken ++ before.map fun (_, other) => (other, action) } : Broadcast).Follows start := by
  have old : broadcast.order = broadcast.stream ++ (before.map (·.2) ++ [action]) ++ rest.map (·.2) := by
    simp [Broadcast.order, split]
  have new : order { broadcast with
      store := broadcast.store.send action
      unsent := before ++ rest
      overtaken := broadcast.overtaken ++ before.map fun (_, other) => (other, action) } =
        broadcast.stream ++ (action :: before.map (·.2)) ++ rest.map (·.2) := by
    simp [Broadcast.order, stream, Store.waiting_send follows.behind]
  have moved : (broadcast.stream ++ (action :: before.map (·.2)) ++ rest.map (·.2)).Perm broadcast.order := by
    rw [old]
    exact ((List.perm_append_singleton action _).symm.append_left _).append_right _
  refine ⟨Nat.le_succ_of_le follows.behind, follows.state, ?_, fun none => ?_, fun cell clear => ?_⟩
  · rw [new]
    exact moved.trans follows.perm
  · obtain ⟨noneBefore, noneNow⟩ := List.append_eq_nil_iff.mp none
    have isFirst : before = [] := List.map_eq_nil_iff.mp noneNow
    rw [new, ← follows.kept noneBefore, old, isFirst]
    rfl
  · obtain ⟨clearBefore, clearNow⟩ := List.forall_mem_append.mp clear
    have clearOf : ∀ other ∈ before.map (·.2), ¬ other.Clashes action cell := by
      intro other member
      obtain ⟨entry, inBefore, rfl⟩ := List.mem_map.mp member
      exact clearNow _ (List.mem_map_of_mem inBefore)
    have replayed := follows.replayed cell clearBefore
    rw [StoreState.content_foldl_apply ordered, old, List.foldl_append, List.foldl_append,
      Action.foldl_write_moved clearOf] at replayed
    rw [new, StoreState.content_foldl_apply ordered, List.foldl_append, List.foldl_append]
    exact replayed

theorem Follows.receive (follows : broadcast.Follows start) {action : Action} {receiver : Receiver}
    (behind : receiver.position ≤ broadcast.store.sent.length)
    (waiting : broadcast.store.waiting broadcast.receiver = broadcast.store.waiting receiver ++ [action]) :
    ({ broadcast with receiver, received := broadcast.received ++ [.action action] } : Broadcast).Follows start := by
  have order : order { broadcast with receiver, received := broadcast.received ++ [.action action] } =
      broadcast.order := by
    simp [Broadcast.order, stream, waiting, Received.action?]
  refine ⟨behind, follows.state, ?_, fun none => ?_, fun cell clear => ?_⟩
  · rw [order]
    exact follows.perm
  · rw [order, follows.kept none]
  · rw [order]
    exact follows.replayed cell clear

theorem follows_step (stepped : broadcast.step event = some after) (ordered : start.InOrder) (missed : after.MissedNone)
    (follows : broadcast.MissedNone → broadcast.Follows start) : after.Follows start := by
  cases event with
  | apply caller action =>
    rw [step, Option.ite_none_left_eq_some] at stepped
    obtain ⟨_, isAfter⟩ := stepped
    cases isAfter
    exact (follows missed).apply ordered caller action
  | send caller =>
    have split := List.takeWhile_append_dropWhile (p := (·.1 != caller)) (l := broadcast.unsent)
    simp only [step] at stepped
    cases fromCaller : broadcast.unsent.dropWhile (·.1 != caller) with
    | nil => simp [fromCaller] at stepped
    | cons entry rest =>
      rw [fromCaller] at split stepped
      cases stepped
      exact (follows missed).send ordered split.symm
  | receive =>
    simp only [step, Option.bind_eq_bind, Option.bind_eq_some_iff, Option.pure_def, Option.some.injEq,
      Prod.exists] at stepped
    obtain ⟨received, receiver, heard, rfl⟩ := stepped
    obtain ⟨missedBefore, notLagged⟩ := List.forall_mem_append.mp missed
    rw [Store.receive?_eq_hear?] at heard
    obtain ⟨behind, ⟨action, rfl, waiting⟩ | ⟨count, rfl⟩⟩ := Store.hear?_eq_some heard
    · exact (follows missedBefore).receive behind waiting
    · exact absurd (List.forall_mem_singleton.mp notLagged) Bool.false_ne_true

theorem follows_run {events : List Event} (ran : broadcast.run events = some after) (ordered : start.InOrder)
    (missed : after.MissedNone) (follows : broadcast.MissedNone → broadcast.Follows start) : after.Follows start := by
  induction events generalizing broadcast with
  | nil =>
    cases ran
    exact follows missed
  | cons event rest ih =>
    obtain ⟨next, stepped, others⟩ := Option.bind_eq_some_iff.mp ran
    exact ih others fun missedBefore => follows_step stepped ordered missedBefore follows

theorem MissedNone.received_eq (missed : broadcast.MissedNone) :
    broadcast.received = (broadcast.received.filterMap Received.action?).map .action := by
  unfold MissedNone at missed
  generalize broadcast.received = received at missed ⊢
  induction received with
  | nil => rfl
  | cons first rest ih =>
    obtain ⟨ofFirst, ofRest⟩ := List.forall_mem_cons.mp missed
    cases first with
    | lagged count => cases ofFirst
    | action sent => exact congrArg (Received.action sent :: ·) (ih ofRest)

end Broadcast

theorem Store.state_foldl_dispatch (store : Store) (actions : List Action) :
    (actions.foldl dispatch store).state = actions.foldl StoreState.apply store.state := by
  induction actions generalizing store with
  | nil => rfl
  | cons action rest ih => exact ih (store.dispatch action)

namespace Broadcast

variable {after : Broadcast} {events : List Event}

/-- Whoever has received all that was sent, and missed none of it, has each action that was dispatched since the
subscription once, in the order of the changes if none has overtaken another. To apply them to the state from before
gives the content of every cell where none has overtaken one that it clashes with. -/
theorem replayed_of_run (earlier : List Action) (ran : run (ofStore (earlier.foldl Store.dispatch {})) events = some after)
    (returned : after.unsent = []) (caughtUp : after.store.receive? after.receiver = none)
    (missed : after.MissedNone) :
    ∃ actions, after.received = actions.map .action ∧ actions.Perm after.applied ∧
      (after.overtaken = [] → actions = after.applied) ∧
      after.store.state = (earlier ++ after.applied).foldl StoreState.apply {} ∧
      ∀ cell, after.IsClear cell →
        ((earlier ++ actions).foldl StoreState.apply {}).content cell = after.store.state.content cell := by
  have start : (earlier.foldl Store.dispatch {}).state = earlier.foldl StoreState.apply {} :=
    Store.state_foldl_dispatch {} earlier
  have ordered : StoreState.InOrder (earlier.foldl Store.dispatch {}).state := by
    rw [start]
    have ofNone : StoreState.InOrder {} := List.Pairwise.nil
    exact ofNone.foldl_apply earlier
  have follows := follows_run ran ordered missed fun _ => follows_ofStore _
  have order : after.order = after.received.filterMap Received.action? := by
    simp [Broadcast.order, stream, returned, Store.waiting_eq_nil_of_receive? caughtUp]
  rw [start] at follows
  refine ⟨after.order, order ▸ missed.received_eq, follows.perm, follows.kept, ?_, fun cell clear => ?_⟩
  · rw [List.foldl_append]
    exact follows.state
  · rw [List.foldl_append]
    exact follows.replayed cell clear

/-! Two callers upsert the same page, and a third one sends its action before both of them, of which the later one is
sent first. -/

def front (component : String) : Page := ⟨"/", ⟨component⟩⟩

def crossing : List Event :=
  [.apply 0 (.upsertPage (front "/p/a.js")), .apply 1 (.upsertPage (front "/p/b.js")), .apply 2 (.setStage .finished),
    .send 2, .send 1, .send 0, .receive, .receive, .receive]

def crossed : Broadcast where
  store :=
    { state := { pages := [front "/p/b.js"], stage := .finished }
      sent := [.upsertPage (front "/p/a.js"), .upsertPage (front "/p/b.js"), .setStage .finished] }
  receiver := ⟨3⟩
  received := [.action (.setStage .finished), .action (.upsertPage (front "/p/b.js")),
    .action (.upsertPage (front "/p/a.js"))]
  applied := [.upsertPage (front "/p/a.js"), .upsertPage (front "/p/b.js"), .setStage .finished]
  overtaken := [(.upsertPage (front "/p/a.js"), .setStage .finished), (.upsertPage (front "/p/b.js"), .setStage .finished),
    (.upsertPage (front "/p/a.js"), .upsertPage (front "/p/b.js"))]

theorem replayed_of_crossing : run (ofStore {}) crossing = some crossed ∧
    ∃ actions : List Action, crossed.received = actions.map .action ∧ (actions.foldl StoreState.apply {}).content .stage = crossed.store.state.content .stage := by
  have ran : run (ofStore {}) crossing = some crossed := by decide +kernel
  have clear : crossed.IsClear .stage := by simp [IsClear, crossed, Action.Clashes]
  obtain ⟨actions, received, _, _, _, replayed⟩ :=
    replayed_of_run [] ran rfl (by decide) (by simp [MissedNone, crossed, Received.action?])
  exact ⟨ran, actions, received, replayed .stage clear⟩

/-- What is received need not give the state. -/
theorem not_replayed : ¬ ∀ events after, run (ofStore {}) events = some after → after.unsent = [] →
    after.store.receive? after.receiver = none → after.MissedNone → ∀ cell,
      ((after.received.filterMap Received.action?).foldl StoreState.apply {}).content cell =
        after.store.state.content cell := by
  intro same
  have ran : run (ofStore {}) crossing = some crossed := by decide +kernel
  have samePage := same crossing crossed ran rfl (by decide) (by simp [MissedNone, crossed, Received.action?]) (.page "/")
  revert samePage
  decide

end Broadcast

end SiteQuery.Watch
