import SiteQuery.Watch.Loop

/-!
Running the watcher on one thread with a clock that moves only when it is told to.

Reactions take turns, each as far as it can go; then the passes of the compiler end one by one, and the
reaction that waited goes on. All passes between two movements of the clock see the same sources, so they have
the same result.
-/

namespace SiteQuery.Watch

namespace Watcher

/-- While a pass is waited for, a timer runs out that is due by now: one without a delay, armed before. -/
def runOut (watcher : Watcher) : Watcher :=
  match watcher.timer.elapse watcher.now with
  | (none, _) => watcher
  | (some _, timer) => { watcher with timer }.finishBootstrap

end Watcher

namespace Reaction

/-- Steps that suffice for a reaction to come to its end. -/
def bound (watcher : Watcher) : Nat := watcher.store.state.pages.length + 16

/-- At most so many steps, up to the end of a pass. -/
def advance : Nat → Watcher → Reaction → Watcher × Reaction
  | 0, watcher, reaction => (watcher, reaction)
  | count + 1, watcher, reaction =>
    if reaction.isCompiling then (watcher, reaction)
    else
      match reaction.step none watcher with
      | none => (watcher, reaction)
      | some (watcher, reaction) => advance count watcher reaction

def turns (watcher : Watcher) : List Reaction → Watcher × List Reaction
  | [] => (watcher, [])
  | reaction :: rest =>
    let (watcher, reaction) := advance (bound watcher) watcher reaction
    let (watcher, rest) := turns watcher rest
    (watcher, reaction :: rest)

/-- The first pass under way ends. -/
def endPass? (result : PassResult) (watcher : Watcher) : List Reaction → Option (Watcher × List Reaction)
  | [] => none
  | reaction :: rest =>
    if reaction.isCompiling then
      (reaction.step result watcher).map fun (watcher, reaction) => (watcher, reaction :: rest)
    else (endPass? result watcher rest).map fun (watcher, rest) => (watcher, reaction :: rest)

def settle (result : PassResult) : Nat → Watcher → List Reaction → Watcher × List Reaction
  | 0, watcher, reactions => (watcher, reactions)
  | count + 1, watcher, reactions =>
    let (watcher, reactions) := turns watcher reactions
    match endPass? result watcher.runOut reactions with
    | none => (watcher, reactions)
    | some (watcher, reactions) => settle result count watcher reactions

/-- All reactions, started together, at their ends: there is at most one pass in each. -/
def runAll (result : PassResult) (watcher : Watcher) (reactions : List Reaction) : Watcher × List Reaction :=
  settle result (reactions.length + 1) watcher reactions

end Reaction

structure Host where
  watcher : Watcher
  loops : List Loop := []
deriving DecidableEq, Repr

namespace Host

/-- Loops that still wait for changes get no more of them from now on. -/
def stop (host : Host) : Host :=
  { host with loops := host.loops.map fun loop => { loop with isOpen := false } }

/-- A new loop in place of the one before. -/
def start (host : Host) : Host :=
  { host.stop with loops := host.stop.loops ++ [.ofStore host.watcher.store] }

def isRunning? (host : Host) : Option Bool := host.loops.getLast?.map (·.isRunning)

/-- Hands a changed source to the loop; false without one that takes it, none without a channel to it. -/
def send? (host : Host) (path : Path) : Option (Bool × Host) :=
  match host.loops.getLast? with
  | none => none
  | some loop =>
    if loop.isOpen then
      let loop := { loop with changes := loop.changes ++ [path] }
      some (true, { host with loops := host.loops.dropLast ++ [loop] })
    else none

/-- All reactions that the loops give. -/
def takeReactions (store : Store) : List Loop → List Loop × List Reaction
  | [] => ([], [])
  | loop :: rest =>
    let (loop, reactions) := loop.run store (loop.pending store)
    let (rest, others) := takeReactions store rest
    (loop :: rest, reactions ++ others)

/-- Everything that can go on now does. -/
def settle (result : PassResult) (host : Host) : Host :=
  let (loops, reactions) := takeReactions host.watcher.store host.loops
  let (watcher, _) := Reaction.runAll result host.watcher reactions
  { watcher, loops }

/-- Moves the clock, and the timer runs out on the way where it is due. -/
def elapse (time : Nat) (host : Host) : Host :=
  match host.watcher.timer.elapse time with
  | (none, timer) => { host with watcher := { host.watcher with timer, now := time } }
  | (some (due, _), timer) =>
    let fired := { host.watcher with timer, now := due }.finishBootstrap
    { host with watcher := { fired with now := time } }

/-- Lets everything happen that is due within a span of time. -/
def advance (result : PassResult) (span : Nat) (host : Host) : Host :=
  let settled := host.settle result
  (settled.elapse (settled.watcher.now + span)).settle result

/-- Reactions to what the host is told directly. -/
def perform (result : PassResult) (reactions : List Reaction) (host : Host) : Host × List Reaction :=
  let (watcher, reactions) := Reaction.runAll result host.watcher reactions
  ({ host with watcher }, reactions)

end Host

end SiteQuery.Watch
