import SiteQuery.Compilation.Documents
import SiteQuery.Watch.Store
import SiteQuery.Watch.Timer

/-!
The watcher and its reactions to new pages and to changed sources.

A reaction goes on in steps, with one access to something shared in each: the components that the watcher
keeps, the lock of a component, the compiler, the store, the executor, the timer, or the flag that bootstrap is
over. Between two steps any other reaction may go on.
-/

namespace SiteQuery.Watch

open Compilation

/-- What the watcher does to the world. -/
inductive Effect where
  | dispatched (action : Action)
  | ran (page : Page) (component : PageComponent)
deriving DecidableEq, Repr

/-- Components by path. -/
abbrev ComponentMap := List (Path × PageComponent)

namespace ComponentMap

def get? (components : ComponentMap) (path : Path) : Option PageComponent :=
  (components.find? (·.1.same path)).map (·.2)

def insert (path : Path) (component : PageComponent) : ComponentMap → ComponentMap
  | [] => [(path, component)]
  | (other, old) :: rest =>
    if other.same path then (other, component) :: rest else (other, old) :: insert path component rest

end ComponentMap

structure Watcher where
  store : Store := {}
  timer : DebounceTimer Unit
  /-- Bootstrap is over. -/
  isFinished : Bool := false
  components : ComponentMap := []
  /-- The components whose lock is taken. -/
  locked : List Path := []
  /-- All effects so far, in their order. -/
  effects : List Effect := []
  /-- The number of passes of the compiler so far. -/
  passes : Nat := 0
  now : Nat := 0
deriving DecidableEq, Repr

namespace Watcher

def ofStore (store : Store) (delay : Nat) : Watcher where
  store := store
  timer := { delay }
  isFinished := store.state.stage == .finished

def dispatch (watcher : Watcher) (action : Action) : Watcher :=
  { watcher with
    store := watcher.store.dispatch action
    effects := watcher.effects ++ [.dispatched action] }

def runPage (watcher : Watcher) (page : Page) (component : PageComponent) : Watcher :=
  { watcher with effects := watcher.effects ++ [.ran page component] }

def keep (watcher : Watcher) (component : PageComponent) : Watcher :=
  { watcher with components := watcher.components.insert component.path component }

def beginPass (watcher : Watcher) : Watcher := { watcher with passes := watcher.passes + 1 }

def isLocked (watcher : Watcher) (path : Path) : Bool := watcher.locked.any (·.same path)

def lock (watcher : Watcher) (path : Path) : Watcher := { watcher with locked := path :: watcher.locked }

def unlock (watcher : Watcher) (path : Path) : Watcher :=
  { watcher with locked := watcher.locked.filter (!·.same path) }

def armTimer (watcher : Watcher) : Watcher := { watcher with timer := watcher.timer.arm watcher.now () }

/-- The timer has run out: the first time bootstrap is over. -/
def finishBootstrap (watcher : Watcher) : Watcher :=
  if watcher.isFinished then watcher else { watcher with isFinished := true }.dispatch (.setStage .finished)

end Watcher

/-- What a pass of the compiler gives, if it succeeds. -/
abbrev PassResult := Option CompiledQueries

/-- The text of the first query of a component. -/
def queryText? (compiled : CompiledQueries) (component : Path) : Option String :=
  ((compiled.get? component).bind (·.head?)).map (·.text)

/-- What a registration does next. -/
inductive Registration where
  | claim
  | announce
  | lock
  | compile
  | endPass
  | keep (query? : Option String)
  | publish (query? : Option String)
  | checkStage
  | armTimer
  | unlock
  | done (isNew : Bool)
deriving DecidableEq, Repr

inductive ChangeOutcome where
  | untracked
  | unchanged
  | updated (pages : List String)
  | failed
deriving DecidableEq, Repr

/-- What a reaction to a changed source does next. -/
inductive Change where
  | look
  | lock
  | compile
  | endPass
  | compare (query? : Option String)
  | keep (query? : Option String)
  | publish (component : PageComponent)
  | findPages (component : PageComponent)
  | clear (component : PageComponent) (pages : List Page)
  | run (component : PageComponent) (pages : List String) (rest : List Page)
  | unlock (outcome : ChangeOutcome)
  | done (outcome : ChangeOutcome)
deriving DecidableEq, Repr

namespace Registration

/-- One step; none while the lock is taken, and at the end. `result` is that of a pass that ends. -/
def step (component : Path) (result : PassResult) (watcher : Watcher) :
    Registration → Option (Watcher × Registration)
  | claim =>
    match watcher.components.get? component with
    | some _ => some (watcher, done false)
    | none => some (watcher.keep ⟨component, none⟩, announce)
  | announce => some (watcher.dispatch (.addComponent component), lock)
  | lock => if watcher.isLocked component then none else some (watcher.lock component, compile)
  | compile => some (watcher.beginPass, endPass)
  | endPass =>
    match result with
    | some compiled => some (watcher, keep (queryText? compiled component))
    | none => some (watcher, checkStage)
  | keep query? => some (watcher.keep ⟨component, query?⟩, publish query?)
  | publish query? => some (watcher.dispatch (.setQuery component query?), checkStage)
  | checkStage => some (watcher, if watcher.isFinished then unlock else armTimer)
  | armTimer => some (watcher.armTimer, unlock)
  | unlock => some (watcher.unlock component, done true)
  | done _ => none

end Registration

namespace Change

/-- One step; none while the lock is taken, and at the end. `result` is that of a pass that ends. -/
def step (path : Path) (result : PassResult) (watcher : Watcher) : Change → Option (Watcher × Change)
  | look =>
    match watcher.components.get? path with
    | some _ => some (watcher, lock)
    | none => some (watcher, done .untracked)
  | lock => if watcher.isLocked path then none else some (watcher.lock path, compile)
  | compile => some (watcher.beginPass, endPass)
  | endPass =>
    match result with
    | some compiled => some (watcher, compare (queryText? compiled path))
    | none => some (watcher, unlock .failed)
  | compare query? =>
    let stored := (watcher.components.get? path).bind (·.query?)
    some (watcher, if query? = stored then unlock .unchanged else keep query?)
  | keep query? => some (watcher.keep ⟨path, query?⟩, publish ⟨path, query?⟩)
  | publish component => some (watcher.dispatch (.setQuery path component.query?), findPages component)
  | findPages component => some (watcher, clear component (watcher.store.state.pagesFor path))
  | clear component pages =>
    let paths := pages.map (·.path)
    some (watcher.dispatch (.removeDependencies paths), run component paths pages)
  | run _ paths [] => some (watcher, unlock (.updated paths))
  | run component paths (page :: rest) => some (watcher.runPage page component, run component paths rest)
  | unlock outcome => some (watcher.unlock path, done outcome)
  | done _ => none

end Change

inductive Reaction where
  | registration (component : Path) (next : Registration)
  | change (path : Path) (next : Change)
deriving DecidableEq, Repr

namespace Reaction

def register (component : Path) : Reaction := .registration component .claim

def sourceChanged (path : Path) : Reaction := .change path .look

def step (result : PassResult) (watcher : Watcher) : Reaction → Option (Watcher × Reaction)
  | registration component next =>
    (next.step component result watcher).map fun (watcher, next) => (watcher, registration component next)
  | change path next => (next.step path result watcher).map fun (watcher, next) => (watcher, change path next)

def isCompiling : Reaction → Bool
  | registration _ .endPass => true
  | change _ .endPass => true
  | _ => false

def isDone : Reaction → Bool
  | registration _ (.done _) => true
  | change _ (.done _) => true
  | _ => false

end Reaction

end SiteQuery.Watch
