import SiteQuery.Watch.Reaction

/-!
The loop that turns actions on the store and changes of sources into reactions.

It starts with the pages that the store has, and reads them again when it has missed actions. It ends when no
more changes can come.
-/

namespace SiteQuery.Watch

structure Loop where
  receiver : Receiver
  /-- Changed sources that are still to be taken. -/
  changes : List Path := []
  /-- More changes may come. -/
  isOpen : Bool := true
  hasStarted : Bool := false
  isRunning : Bool := true
deriving DecidableEq, Repr, Inhabited

namespace Loop

/-- A loop over all that happens from now on. -/
def ofStore (store : Store) : Loop := { receiver := store.subscribe }

def knownPages (store : Store) : List Reaction := store.state.pages.map fun page => .register page.component

def start (store : Store) (loop : Loop) : Loop × List Reaction :=
  ({ loop with hasStarted := true }, knownPages store)

def reactTo (store : Store) : Received → List Reaction
  | .action (.upsertPage page) => [.register page.component]
  | .action _ => []
  | .lagged _ => knownPages store

/-- Takes what was received next. -/
def takeAction? (store : Store) (loop : Loop) : Option (Loop × List Reaction) :=
  (store.receive? loop.receiver).map fun (received, receiver) => ({ loop with receiver }, reactTo store received)

/-- Takes the next change; the loop ends where there is none and none can come. -/
def takeChange? (loop : Loop) : Option (Loop × List Reaction) :=
  match loop.changes with
  | path :: rest => some ({ loop with changes := rest }, [.sourceChanged path])
  | [] => if loop.isOpen then none else some ({ loop with isRunning := false }, [])

def step? (store : Store) (loop : Loop) : Option (Loop × List Reaction) :=
  if !loop.isRunning then none
  else if !loop.hasStarted then some (loop.start store)
  else (loop.takeAction? store).orElse fun _ => loop.takeChange?

/-- The steps that a loop can take before it has to wait. -/
def pending (store : Store) (loop : Loop) : Nat := store.sent.length + loop.changes.length + 3

/-- At most so many steps, actions before changes, with all reactions that they give. -/
def run (store : Store) : Nat → Loop → Loop × List Reaction
  | 0, loop => (loop, [])
  | count + 1, loop =>
    match loop.step? store with
    | none => (loop, [])
    | some (loop, reactions) =>
      let (loop, others) := run store count loop
      (loop, reactions ++ others)

end Loop

end SiteQuery.Watch
