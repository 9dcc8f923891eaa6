import SiteQuery.Proofs.Watch.Session

/-!
Runs of a watcher with its calls: no update is lost, and none comes too late.

Two passes for one component never overlap, and a component that no call is busy with has the query of the pass that
began last among those that have succeeded: `Session.updated_of_run`.
-/

namespace SiteQuery.Watch

/-- What may happen to a watcher. Others may set the stage too; components are left to the watcher. -/
inductive Turn where
  | event (event : Event)
  | setStage (stage : BootstrapStage)

namespace Session

def turn (session : Session) : Turn → Option Session
  | .event event => session.step event
  | .setStage stage =>
    some { session with
      watcher := { session.watcher with store := session.watcher.store.dispatch (.setStage stage) } }

def run (session : Session) (turns : List Turn) : Option Session := turns.foldlM turn session

/-- No call for the component is under way. -/
def IsIdle (session : Session) (component : Path) : Prop :=
  ∀ reaction ∈ session.reactions, reaction.component.same component = true → reaction.isDone = true

/-- The query of the pass for a component that began last among those that have succeeded. -/
def lastFound? (session : Session) (component : Path) : Option String :=
  (Pass.lastCompiled? component session.passes).bind (queryText? · component)

variable {session after : Session}

/-- What every turn of a run keeps, the run keeps. -/
theorem run_invariant (holds : Session → Prop) {turns : List Turn}
    (kept : ∀ turn ∈ turns, ∀ session after, holds session → session.turn turn = some after → holds after)
    (ran : session.run turns = some after) (initially : holds session) : holds after := by
  induction turns generalizing session with
  | nil => exact Option.some.inj ran ▸ initially
  | cons turn rest ih =>
    simp only [run, List.foldlM_cons, Option.bind_eq_bind, Option.bind_eq_some_iff] at ran
    obtain ⟨next, isNext, others⟩ := ran
    have held := kept turn List.mem_cons_self session next initially isNext
    exact ih (fun other member => kept other (List.mem_cons_of_mem _ member)) others held

theorem queries_turn {turn : Turn} (queries : Consistent session.ledger session.calls ∧ Mirrored session.ledger session.calls)
    (turned : session.turn turn = some after) :
    Consistent after.ledger after.calls ∧ Mirrored after.ledger after.calls := by
  obtain ⟨consistent, mirrored⟩ := queries
  cases turn with
  | event event => exact ⟨consistent_step turned consistent, mirrored_step turned consistent mirrored⟩
  | setStage stage =>
    cases turned
    exact ⟨consistent, mirrored⟩

theorem IsIdle.stage {component : Path} (idle : session.IsIdle component) {call : Call} (member : call ∈ session.calls)
    (same : call.component.same component = true) : call.stage = .ended := by
  obtain ⟨reaction, inReactions, rfl⟩ := List.mem_map.mp member
  exact Reaction.stage_of_isDone (idle reaction inReactions same)

/-- However calls go on and whatever passes give, passes for one component come one after the other, and where no call
is under way the watcher and the store have the query that was found last. -/
theorem updated_of_run {store : Store} (unset : store.state.components = []) {delay : Nat} {turns : List Turn}
    (ran : (ofStore store delay).run turns = some session) :
    (session.reactions.Pairwise fun a b =>
      a.isCompiling = true → b.isCompiling = true → a.component.same b.component = false) ∧
    ∀ component, session.IsIdle component →
      (session.watcher.components.get? component).bind (·.query?) = session.lastFound? component ∧
      (session.watcher.store.state.component? component).bind (·.query?) = session.lastFound? component := by
  obtain ⟨consistent, mirrored⟩ : Consistent session.ledger session.calls ∧ Mirrored session.ledger session.calls :=
    run_invariant (fun session => Consistent session.ledger session.calls ∧ Mirrored session.ledger session.calls)
      (fun _ _ _ _ => queries_turn) ran ⟨consistent_ofStore store delay, mirrored_ofStore unset delay⟩
  constructor
  · refine (List.pairwise_map.mp consistent.apart).imp fun apart compilingA compilingB => ?_
    apply apart
    · rw [Reaction.call, Reaction.stage_of_isCompiling compilingA]
      rfl
    · rw [Reaction.call, Reaction.stage_of_isCompiling compilingB]
      rfl
  · intro component idle
    have kept : session.ledger.kept? component = session.lastFound? component := by
      apply consistent.kept component
      intro call member same query? isFound
      rw [idle.stage member same] at isFound
      cases isFound
    have published : session.ledger.published? component = session.ledger.kept? component := by
      apply mirrored component
      intro call member same query? isKept
      rw [idle.stage member same] at isKept
      cases isKept
    exact ⟨kept, published.trans kept⟩

instance (session : Session) (component : Path) : Decidable (session.IsIdle component) :=
  inferInstanceAs (Decidable (∀ reaction ∈ session.reactions, _))

/-- A pass that finds one query. -/
def oneQuery (component : Path) (text : String) : PassResult := some [(component, [⟨"A", component, text⟩])]

/-- A call goes on for a number of steps, and what its passes give. -/
def goOn (index count : Nat) (result : PassResult) : List Turn := List.replicate count (.event (.move index result))

def sitePath : Path := ⟨"/p/a.js"⟩

/-- A change takes the lock before the registration that it has seen, and a further one fails. -/
def overtaken : List Turn :=
  .event (.register sitePath) :: goOn 0 1 none ++ .event (.sourceChanged sitePath) :: goOn 1 3 none ++ goOn 0 1 none
    ++ .event (.sourceChanged sitePath) :: goOn 2 1 none ++ goOn 1 8 (oneQuery sitePath "first")
    ++ goOn 0 8 (oneQuery sitePath "second") ++ goOn 2 4 none

theorem updated_of_overtaken : ({} : Store).state.components = [] ∧
    ∃ session, (ofStore {} 100).run overtaken = some session ∧ session.IsIdle sitePath ∧
      session.lastFound? sitePath = some "second" ∧
      (session.watcher.components.get? sitePath).bind (·.query?) = some "second" ∧
      (session.watcher.store.state.component? sitePath).bind (·.query?) = some "second" := by
  have atEnd : ∃ session ∈ (ofStore {} 100).run overtaken, session.IsIdle sitePath ∧
      session.lastFound? sitePath = some "second" := by decide +kernel
  obtain ⟨session, ran, idle, found⟩ := atEnd
  have unset : ({} : Store).state.components = [] := rfl
  obtain ⟨kept, published⟩ := (updated_of_run unset ran).2 sitePath idle
  exact ⟨unset, session, ran, idle, found, kept.trans found, published.trans found⟩

end Session

end SiteQuery.Watch
