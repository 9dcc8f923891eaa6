import SiteQuery.Path

/-!
The store of pages and components: its state, the actions on it, and who hears of them.

To dispatch an action is to apply it to the state and then to send it. What was sent is kept for each receiver
up to `Store.capacity`; a receiver that is further behind hears how many actions it has missed.
-/

namespace SiteQuery.Watch

/-- A page with the component file that renders it. -/
structure Page where
  path : String
  component : Path
deriving DecidableEq, Repr, Inhabited

/-- A component file with the compiled text of its query, if it has one. -/
structure PageComponent where
  path : Path
  query? : Option String
deriving DecidableEq, Repr, Inhabited

inductive BootstrapStage where
  | extracting
  | finished
deriving DecidableEq, Repr, Inhabited

inductive Action where
  | upsertPage (page : Page)
  | addComponent (component : Path)
  | setQuery (component : Path) (query? : Option String)
  | addDependency (page key : String)
  | removeDependencies (pages : List String)
  | setStage (stage : BootstrapStage)
deriving DecidableEq, Repr, Inhabited

/-- Pages and dependencies are in order, each once. -/
structure StoreState where
  pages : List Page := []
  components : List PageComponent := []
  dependencies : List (String × List String) := []
  stage : BootstrapStage := .extracting
deriving DecidableEq, Repr, Inhabited

def Page.insert (page : Page) : List Page → List Page
  | [] => [page]
  | other :: rest =>
    if page.path < other.path then page :: other :: rest
    else if page.path = other.path then page :: rest
    else other :: insert page rest

namespace PageComponent

def find? (components : List PageComponent) (path : Path) : Option PageComponent :=
  components.find? (·.path.same path)

def insertMissing (path : Path) (components : List PageComponent) : List PageComponent :=
  if (find? components path).isSome then components else components ++ [⟨path, none⟩]

def setQuery (path : Path) (query? : Option String) (components : List PageComponent) : List PageComponent :=
  (insertMissing path components).map fun component =>
    if component.path.same path then { component with query? } else component

end PageComponent

def insertKey (key : String) : List String → List String
  | [] => [key]
  | other :: rest =>
    if key < other then key :: other :: rest
    else if key = other then other :: rest
    else other :: insertKey key rest

def insertDependency (page key : String) : List (String × List String) → List (String × List String)
  | [] => [(page, [key])]
  | (other, keys) :: rest =>
    if page < other then (page, [key]) :: (other, keys) :: rest
    else if page = other then (other, insertKey key keys) :: rest
    else (other, keys) :: insertDependency page key rest

namespace StoreState

def apply (state : StoreState) : Action → StoreState
  | .upsertPage page => { state with pages := page.insert state.pages }
  | .addComponent path => { state with components := PageComponent.insertMissing path state.components }
  | .setQuery path query? => { state with components := PageComponent.setQuery path query? state.components }
  | .addDependency page key => { state with dependencies := insertDependency page key state.dependencies }
  | .removeDependencies pages =>
    { state with dependencies := state.dependencies.filter fun (page, _) => !pages.contains page }
  | .setStage stage => { state with stage }

def component? (state : StoreState) (path : Path) : Option PageComponent :=
  PageComponent.find? state.components path

def pagesFor (state : StoreState) (component : Path) : List Page :=
  state.pages.filter (·.component.same component)

def dependenciesOf (state : StoreState) (page : String) : List String :=
  ((state.dependencies.find? (·.1 == page)).map (·.2)).getD []

end StoreState

structure Store where
  state : StoreState := {}
  /-- All actions that were sent, the last one first. -/
  sent : List Action := []
deriving DecidableEq, Repr, Inhabited

/-- Stands behind the actions that it has seen or missed. -/
structure Receiver where
  position : Nat
deriving DecidableEq, Repr, Inhabited

inductive Received where
  | action (action : Action)
  | lagged (missed : Nat)
deriving DecidableEq, Repr

namespace Store

def capacity : Nat := 256

def apply (store : Store) (action : Action) : Store := { store with state := store.state.apply action }

def send (store : Store) (action : Action) : Store := { store with sent := action :: store.sent }

def dispatch (store : Store) (action : Action) : Store := (store.apply action).send action

/-- Receives what is sent from now on. -/
def subscribe (store : Store) : Receiver := ⟨store.sent.length⟩

def receive? (store : Store) (receiver : Receiver) : Option (Received × Receiver) :=
  let total := store.sent.length
  if total ≤ receiver.position then none
  else if capacity < total - receiver.position then
    some (.lagged (total - capacity - receiver.position), ⟨total - capacity⟩)
  else (store.sent[total - 1 - receiver.position]?).map fun action => (.action action, ⟨receiver.position + 1⟩)

/-- All that a receiver has before it. -/
def drain (store : Store) (receiver : Receiver) : List Received × Receiver :=
  let total := store.sent.length
  let behind := total - receiver.position
  let lag := if capacity < behind then [.lagged (behind - capacity)] else []
  (lag ++ (store.sent.take (min behind capacity)).reverse.map .action, ⟨max total receiver.position⟩)

end Store

end SiteQuery.Watch
