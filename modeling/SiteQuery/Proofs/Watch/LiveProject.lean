import SiteQuery.Proofs.Compilation.SchemaCache
import SiteQuery.Proofs.Watch.Session

/-!
A watcher over a project whose sources are edited.

Every edit of a source is to be told to the watcher. When all is told and every call is over, a component has the
query that its sources give now, if its last pass has succeeded and no other source was edited since that pass
began: `LiveProject.current_of_quiet`. The last condition cannot go: a call compares the component of its own
path only.
-/

namespace SiteQuery.Watch

open Compilation

/-- An edit of a source file, with the number of passes that began before it. -/
structure Edit where
  file : Path
  stamp : Nat

structure LiveProject where
  session : Session
  system : FileSystem
  compiler : QueryCompiler
  edits : List Edit := []
  /-- Edited sources that the watcher has not been told of since. -/
  untold : List Path := []

inductive Happening where
  | event (event : Event)
  /-- A source file is edited, and the files are like this from then on. -/
  | edit (path : Path) (system : FileSystem)

namespace LiveProject

/-- What a pass over the present sources gives. -/
def compiled? (project : LiveProject) : PassResult := (project.compiler.compileAll project.system).1.toOption

def isEditedSince (project : LiveProject) (pass : Pass) : Bool := project.edits.any (pass.serial < ·.stamp)

/-- What the last pass for a component gives if it ends now. While sources were edited it may have read them
before or after that, so that it can give anything. -/
def resultOf (project : LiveProject) (component : Path) (given : PassResult) : PassResult :=
  match Pass.last? component project.session.passes with
  | some pass => if project.isEditedSince pass then given else project.compiled?
  | none => given

def move (project : LiveProject) (index : Nat) (given : PassResult) : Option LiveProject := do
  let reaction ← project.session.reactions[index]?
  let session ← project.session.move index (project.resultOf reaction.component given)
  if reaction.isCompiling then
    return { project with session, compiler := (project.compiler.compileAll project.system).2 }
  else return { project with session }

/-- The schema is no source: it stays as it is. -/
def step (project : LiveProject) : Happening → Option LiveProject
  | .event (.move index given) => project.move index given
  | .event (.sourceChanged path) =>
    (project.session.step (.sourceChanged path)).map fun session =>
      { project with session, untold := project.untold.filter (!·.same path) }
  | .event event => (project.session.step event).map fun session => { project with session }
  | .edit path system =>
    if project.system.keeps system project.compiler.schema.path then
      some { project with
        system
        edits := ⟨path, project.session.passes.length⟩ :: project.edits
        untold := path :: project.untold }
    else none

def run (project : LiveProject) (happenings : List Happening) : Option LiveProject := happenings.foldlM step project

/-- A watcher that was just made, over files and a compiler that has not been used. -/
def ofConfig (locations : Locations) (config : Config) (store : Store) (delay : Nat) (system : FileSystem) :
    LiveProject where
  session := .ofStore store delay
  system := system
  compiler := .ofConfig locations config

/-- All calls are over, and every edit was told. -/
def IsQuiet (project : LiveProject) : Prop :=
  (∀ reaction ∈ project.session.reactions, reaction.isDone = true) ∧ project.untold = []

/-- The queries of the last pass, if it has succeeded and no source was edited since it began. -/
def concluded? (project : LiveProject) : Option CompiledQueries :=
  match project.session.passes with
  | [] => none
  | final :: _ => if project.isEditedSince final then none else final.compiled?

end LiveProject

/-- A call at this stage will make a pass, unless its component is unknown. -/
def Stage.awaitsPass : Stage → Bool
  | looking | waiting | ready => true
  | _ => false

/-- What holds of a project along every run. -/
structure LiveProject.Sound (project : LiveProject) : Prop where
  agrees : project.compiler.schema.Agrees project.system
  consistent : Consistent project.session.ledger project.session.calls
  serials : ∀ pass ∈ project.session.passes, pass.serial < project.session.passes.length
  stamps : ∀ edit ∈ project.edits, edit.stamp ≤ project.session.passes.length
  /-- A pass over sources that were not edited since gives what they give now. -/
  honest : ∀ pass ∈ project.session.passes, project.isEditedSince pass = false →
    ∀ result, pass.result? = some result → result = project.compiled?
  known : ∀ call ∈ project.session.calls, call.stage.hasSeen = true →
    project.session.ledger.isKnown call.component = true
  ended : ∀ path pass, Pass.last? path project.session.passes = some pass → pass.result? = none →
    ∃ call ∈ project.session.calls, call.component.same path = true ∧ call.stage = .compiling
  /-- A component that was edited since its last pass has another one before it, and its first one if it had none. -/
  told : ∀ path, project.session.ledger.isKnown path = true →
    (∀ pass, Pass.last? path project.session.passes = some pass →
      ∃ edit ∈ project.edits, pass.serial < edit.stamp ∧ edit.file.same path = true) →
    (∃ file ∈ project.untold, file.same path = true) ∨
      ∃ call ∈ project.session.calls, call.component.same path = true ∧ call.stage.awaitsPass = true

namespace LiveProject

variable {project after : LiveProject}

theorem compiled?_eq (agrees : project.compiler.schema.Agrees project.system) :
    project.compiled? = project.compiler.compiledAfresh? project.system :=
  QueryCompiler.toOption_compileAll agrees

theorem resultOf_eq {component : Path} {given : PassResult} {pass : Pass}
    (last : Pass.last? component project.session.passes = some pass) (unedited : project.isEditedSince pass = false) :
    project.resultOf component given = project.compiled? := by
  simp [resultOf, last, unedited]

/-- What a move does to everything but the session. -/
theorem move_eq_some {index : Nat} {given : PassResult} (moved : project.move index given = some after) :
    ∃ reaction, project.session.reactions[index]? = some reaction ∧
      project.session.move index (project.resultOf reaction.component given) = some after.session ∧
      after.system = project.system ∧ after.edits = project.edits ∧ after.untold = project.untold ∧
      (after.compiler = project.compiler ∨ after.compiler = (project.compiler.compileAll project.system).2) := by
  simp only [move, Option.bind_eq_bind, Option.bind_eq_some_iff] at moved
  obtain ⟨reaction, here, session, moved, result⟩ := moved
  by_cases compiling : reaction.isCompiling = true
  · rw [if_pos compiling] at result
    cases result
    exact ⟨reaction, here, moved, rfl, rfl, rfl, .inr rfl⟩
  · rw [if_neg compiling] at result
    cases result
    exact ⟨reaction, here, moved, rfl, rfl, rfl, .inl rfl⟩

namespace Sound

/-- Calls may begin; a source that was told has one of them. -/
theorem begin (sound : project.Sound) {session : Session} (sameLedger : session.ledger = project.session.ledger)
    {begun : List Call} (calls : session.calls.Perm (begun ++ project.session.calls))
    (idle : ∀ call ∈ begun, call.stage = .unseen ∨ call.stage = .looking) {untold : List Path}
    (told : ∀ file ∈ project.untold, file ∈ untold ∨
      ∃ call ∈ begun, file.same call.component = true ∧ call.stage = .looking) :
    Sound { project with session, untold } := by
  have samePasses : session.passes = project.session.passes := congrArg Ledger.passes sameLedger
  refine ⟨sound.agrees, ?_, ?_, ?_, ?_, ?_, ?_, ?_⟩
  · rw [sameLedger]
    exact (sound.consistent.append idle).perm calls.symm
  · rw [samePasses]
    exact sound.serials
  · rw [samePasses]
    exact sound.stamps
  · rw [samePasses]
    exact sound.honest
  · rw [sameLedger]
    intro call member seen
    rcases List.mem_append.mp (calls.mem_iff.mp member) with new | old
    · rcases idle call new with h | h <;> simp [h, Stage.hasSeen] at seen
    · exact sound.known call old seen
  · rw [samePasses]
    intro path pass last isOpen
    obtain ⟨call, member, compiling⟩ := sound.ended path pass last isOpen
    exact ⟨call, calls.mem_iff.mpr (List.mem_append_right _ member), compiling⟩
  · rw [samePasses, sameLedger]
    intro path known edited
    rcases sound.told path known edited with ⟨file, member, same⟩ | ⟨call, member, awaits⟩
    · rcases told file member with still | ⟨call, new, sameFile, looking⟩
      · exact .inl ⟨file, still, same⟩
      · refine .inr ⟨call, calls.mem_iff.mpr (List.mem_append_left _ new), ?_, by rw [looking]; rfl⟩
        rw [Path.same_comm] at sameFile
        exact Path.same_trans sameFile same
    · exact .inr ⟨call, calls.mem_iff.mpr (List.mem_append_right _ member), awaits⟩

theorem edit (sound : project.Sound) {path : Path} {system : FileSystem}
    (kept : project.system.keeps system project.compiler.schema.path = true) :
    Sound { project with
      system
      edits := ⟨path, project.session.passes.length⟩ :: project.edits
      untold := path :: project.untold } := by
  refine ⟨sound.agrees.of_keeps kept, sound.consistent, sound.serials, ?_, ?_, sound.known, sound.ended, ?_⟩
  · intro edit member
    rcases List.mem_cons.mp member with rfl | old
    · exact Nat.le_refl _
    · exact sound.stamps edit old
  · -- Every pass so far began before the edit.
    intro pass member unedited
    simp [isEditedSince, sound.serials pass member] at unedited
  · intro other known edited
    by_cases same : path.same other = true
    · exact .inl ⟨path, List.mem_cons_self, same⟩
    · have before : ∀ pass, Pass.last? other project.session.passes = some pass →
          ∃ edit ∈ project.edits, pass.serial < edit.stamp ∧ edit.file.same other = true := by
        intro pass last
        obtain ⟨edit, member, later, own⟩ := edited pass last
        rcases List.mem_cons.mp member with rfl | old
        · exact absurd own same
        · exact ⟨edit, old, later, own⟩
      rcases sound.told other known before with ⟨file, still, sameFile⟩ | awaits
      · exact .inl ⟨file, List.mem_cons_of_mem _ still, sameFile⟩
      · exact .inr awaits

variable {component : Path} {result : PassResult} {stage next : Stage} {changed : Ledger} {others : List Call}

theorem serials_move (sound : project.Sound)
    (step : Stage.Step component result project.session.ledger stage changed next) :
    project.session.passes.length ≤ changed.passes.length ∧ ∀ pass ∈ changed.passes, pass.serial < changed.passes.length := by
  rcases step.passes_cases with ⟨same, _⟩ | ⟨begun, _⟩ | ⟨ended, _⟩
  · rw [same]
    exact ⟨Nat.le_refl _, sound.serials⟩
  · rw [begun]
    refine ⟨Nat.le_succ _, fun pass member => ?_⟩
    rcases List.mem_cons.mp member with rfl | old
    · exact Nat.lt_succ_self _
    · exact Nat.lt_succ_of_lt (sound.serials pass old)
  · rw [ended, Pass.length_finish]
    refine ⟨Nat.le_refl _, fun pass member => ?_⟩
    rcases Pass.mem_finish member with old | ⟨last, _, inPasses, rfl⟩
    · exact sound.serials pass old
    · exact sound.serials last inPasses

theorem honest_move (sound : project.Sound) {given : PassResult}
    (step : Stage.Step component (project.resultOf component given) project.session.ledger stage changed next) :
    ∀ pass ∈ changed.passes, project.isEditedSince pass = false →
      ∀ result, pass.result? = some result → result = project.compiled? := by
  intro pass member unedited result gives
  rcases step.passes_cases with ⟨same, _⟩ | ⟨begun, _⟩ | ⟨ended, _⟩
  · rw [same] at member
    exact sound.honest pass member unedited result gives
  · rw [begun] at member
    rcases List.mem_cons.mp member with rfl | old
    · exact absurd gives nofun
    · exact sound.honest pass old unedited result gives
  · rw [ended] at member
    rcases Pass.mem_finish member with old | ⟨last, found, _, rfl⟩
    · exact sound.honest pass old unedited result gives
    · cases gives
      exact resultOf_eq found unedited

theorem ended_move (sound : project.Sound)
    (calls : project.session.calls.Perm (⟨component, stage⟩ :: others))
    (step : Stage.Step component result project.session.ledger stage changed next)
    (path : Path) (pass : Pass) (last : Pass.last? path changed.passes = some pass) (isOpen : pass.result? = none) :
    ∃ call ∈ ⟨component, next⟩ :: others, call.component.same path = true ∧ call.stage = .compiling := by
  have another (found : Pass.last? path project.session.passes = some pass)
      (notOwn : component.same path = true → stage ≠ .compiling) :
      ∃ call ∈ ⟨component, next⟩ :: others, call.component.same path = true ∧ call.stage = .compiling := by
    obtain ⟨call, member, same, compiling⟩ := sound.ended path pass found isOpen
    rcases List.mem_cons.mp (calls.mem_iff.mp member) with rfl | inOthers
    · exact absurd compiling (notOwn same)
    · exact ⟨call, List.mem_cons_of_mem _ inOthers, same, compiling⟩
  rcases step.passes_cases with ⟨same, _, notCompiling, _⟩ | ⟨begun, rfl, rfl⟩ | ⟨ended, rfl, _⟩
  · rw [same] at last
    exact another last fun _ => notCompiling
  · rw [begun, Pass.last?_cons] at last
    by_cases here : component.same path = true
    · exact ⟨_, List.mem_cons_self, here, rfl⟩
    · rw [if_neg here] at last
      exact another last fun _ => nofun
  · rw [ended, Pass.last?_finish] at last
    by_cases here : component.same path = true
    · rw [if_pos here, Option.map_eq_some_iff] at last
      obtain ⟨_, _, rfl⟩ := last
      exact absurd isOpen nofun
    · rw [if_neg here] at last
      exact another last fun also => absurd also here

theorem told_move (sound : project.Sound)
    (calls : project.session.calls.Perm (⟨component, stage⟩ :: others))
    (step : Stage.Step component result project.session.ledger stage changed next)
    (path : Path) (known : changed.isKnown path = true)
    (edited : ∀ pass, Pass.last? path changed.passes = some pass →
      ∃ edit ∈ project.edits, pass.serial < edit.stamp ∧ edit.file.same path = true) :
    (∃ file ∈ project.untold, file.same path = true) ∨
      ∃ call ∈ ⟨component, next⟩ :: others, call.component.same path = true ∧ call.stage.awaitsPass = true := by
  have seen := sound.known ⟨component, stage⟩ (calls.mem_iff.mpr List.mem_cons_self)
  rcases step.isKnown_origin seen known with knownBefore | ⟨here, waits⟩
  · -- No pass for the path has begun, so that what was awaited before the step is still there or went on.
    have notBegun : component.same path = true → stage ≠ .ready := by
      rintro here rfl
      rcases step.passes_cases with ⟨_, notReady, _⟩ | ⟨begun, _⟩ | ⟨_, impossible, _⟩
      · exact notReady rfl
      · obtain ⟨edit, member, later, _⟩ := edited _ (by rw [begun, Pass.last?_cons, if_pos here])
        exact Nat.not_lt.mpr (sound.stamps edit member) later
      · exact absurd impossible nofun
    have editedBefore : ∀ pass, Pass.last? path project.session.passes = some pass →
        ∃ edit ∈ project.edits, pass.serial < edit.stamp ∧ edit.file.same path = true := by
      intro pass last
      rcases step.passes_cases with ⟨same, _⟩ | ⟨begun, ready, _⟩ | ⟨ended, _⟩
      · exact edited pass (same ▸ last)
      · have apart : ¬ component.same path = true := fun here => notBegun here ready
        exact edited pass (by rwa [begun, Pass.last?_cons, if_neg apart])
      · by_cases here : component.same path = true
        · refine edited { pass with result? := some result } ?_
          rw [ended, Pass.last?_finish, if_pos here]
          exact congrArg (Option.map _) last
        · exact edited pass (by rwa [ended, Pass.last?_finish, if_neg here])
    rcases sound.told path knownBefore editedBefore with untold | ⟨call, member, same, awaits⟩
    · exact .inl untold
    · right
      rcases List.mem_cons.mp (calls.mem_iff.mp member) with rfl | inOthers
      · refine ⟨⟨component, next⟩, List.mem_cons_self, same, ?_⟩
        cases step with
        | untracked unknown =>
          rw [Ledger.isKnown_congr _ same, knownBefore] at unknown
          exact absurd unknown nofun
        | compile => exact absurd rfl (notBegun same)
        | tracked => rfl
        | announce => rfl
        | lock => rfl
        | _ => exact absurd awaits nofun
      · exact ⟨call, List.mem_cons_of_mem _ inOthers, same, awaits⟩
  · exact .inr ⟨_, List.mem_cons_self, here, by rw [waits]; rfl⟩

theorem move (sound : project.Sound) {index : Nat} {given : PassResult}
    (moved : project.move index given = some after) : after.Sound := by
  obtain ⟨reaction, here, sessionMoved, sameSystem, sameEdits, sameUntold, compiler⟩ := move_eq_some moved
  obtain ⟨other, others, next, alsoHere, before, afterwards, step⟩ := Session.stage_step_move sessionMoved
  obtain rfl : reaction = other := Option.some.inj (here.symm.trans alsoHere)
  have keepsCompiler : after.compiler.schema.Agrees after.system ∧ after.compiled? = project.compiled? := by
    rw [sameSystem]
    rcases compiler with same | used
    · exact ⟨same ▸ sound.agrees, by simp only [compiled?, same, sameSystem]⟩
    · obtain ⟨agrees, _, sameAfresh⟩ := QueryCompiler.compileAll_snd sound.agrees
      rw [← used] at agrees sameAfresh
      refine ⟨agrees, ?_⟩
      rw [compiled?_eq (by rwa [sameSystem]), compiled?_eq sound.agrees, sameAfresh, sameSystem]
  obtain ⟨longer, serials⟩ := sound.serials_move step
  have sameSince (pass : Pass) : after.isEditedSince pass = project.isEditedSince pass := by
    simp only [isEditedSince, sameEdits]
  refine ⟨keepsCompiler.1, ?_, serials, ?_, ?_, ?_, ?_, ?_⟩
  · have stepped : project.session.step (.move index (project.resultOf reaction.component given)) =
        some after.session := sessionMoved
    exact Session.consistent_step stepped sound.consistent
  · rw [sameEdits]
    exact fun edit member => Nat.le_trans (sound.stamps edit member) longer
  · intro pass member unedited
    rw [keepsCompiler.2]
    exact sound.honest_move step pass member (by rwa [← sameSince])
  · intro call member seen
    rcases List.mem_cons.mp (afterwards.mem_iff.mp member) with rfl | inOthers
    · exact step.isKnown_next (sound.known _ (before.mem_iff.mpr List.mem_cons_self)) seen
    · exact step.isKnown_mono (sound.known call (before.mem_iff.mpr (List.mem_cons_of_mem _ inOthers)) seen)
  · intro path pass last isOpen
    obtain ⟨call, member, compiling⟩ := sound.ended_move before step path pass last isOpen
    exact ⟨call, afterwards.mem_iff.mpr member, compiling⟩
  · intro path known edited
    rw [sameEdits] at edited
    rw [sameUntold]
    rcases sound.told_move before step path known edited with untold | ⟨call, member, awaits⟩
    · exact .inl untold
    · exact .inr ⟨call, afterwards.mem_iff.mpr member, awaits⟩

theorem step (sound : project.Sound) {happening : Happening} (stepped : project.step happening = some after) :
    after.Sound := by
  cases happening with
  | edit path system =>
    simp only [LiveProject.step, Option.ite_none_right_eq_some, Option.some.injEq] at stepped
    obtain ⟨kept, rfl⟩ := stepped
    exact sound.edit kept
  | event event =>
    cases event with
    | move index given => exact sound.move stepped
    | sourceChanged path =>
      simp only [LiveProject.step, Option.map_eq_some_iff] at stepped
      obtain ⟨session, called, rfl⟩ := stepped
      obtain ⟨sameLedger, begun, calls, idle, looks⟩ := Session.ledger_step called (by simp)
      refine sound.begin sameLedger calls idle fun file member => ?_
      by_cases same : file.same path = true
      · exact .inr ⟨_, looks path rfl, same, rfl⟩
      · exact .inl (by simp [member, same])
    | _ =>
      simp only [LiveProject.step, Option.map_eq_some_iff] at stepped
      obtain ⟨session, called, rfl⟩ := stepped
      obtain ⟨sameLedger, begun, calls, idle, _⟩ := Session.ledger_step called (by simp)
      exact sound.begin sameLedger calls idle fun file member => .inl member

theorem run (sound : project.Sound) {happenings : List Happening} (ran : project.run happenings = some after) :
    after.Sound := by
  induction happenings generalizing project with
  | nil =>
    cases ran
    exact sound
  | cons happening rest ih =>
    simp only [LiveProject.run, List.foldlM_cons, Option.bind_eq_bind, Option.bind_eq_some_iff] at ran
    obtain ⟨next, stepped, ran⟩ := ran
    exact ih (sound.step stepped) ran

end Sound

theorem sound_ofConfig (locations : Locations) (config : Config) (store : Store) (delay : Nat) (system : FileSystem) :
    (ofConfig locations config store delay system).Sound where
  agrees _ _ kept := absurd kept nofun
  consistent := Session.consistent_ofStore store delay
  serials := by simp [ofConfig, Session.ofStore]
  stamps := by simp [ofConfig]
  honest := by simp [ofConfig, Session.ofStore]
  known := by simp [ofConfig, Session.ofStore, Session.calls]
  ended := by simp [ofConfig, Session.ofStore, Pass.last?]
  told := by simp [ofConfig, Session.ofStore, Session.ledger, Watcher.ledger, Watcher.ofStore, Ledger.isKnown,
    ComponentMap.get?]

theorem session_step {happening : Happening} (stepped : project.step happening = some after) :
    after.session = project.session ∨ ∃ event, project.session.step event = some after.session := by
  cases happening with
  | edit path system =>
    simp only [step, Option.ite_none_right_eq_some, Option.some.injEq] at stepped
    obtain ⟨_, rfl⟩ := stepped
    exact .inl rfl
  | event event =>
    cases event with
    | move index given =>
      obtain ⟨reaction, _, moved, _⟩ := move_eq_some stepped
      exact .inr ⟨.move index _, moved⟩
    | _ =>
      simp only [step, Option.map_eq_some_iff] at stepped
      obtain ⟨session, called, rfl⟩ := stepped
      exact .inr ⟨_, called⟩

theorem mirrored_run {happenings : List Happening} (sound : project.Sound)
    (mirrored : Mirrored project.session.ledger project.session.calls) (ran : project.run happenings = some after) :
    Mirrored after.session.ledger after.session.calls := by
  induction happenings generalizing project with
  | nil =>
    cases ran
    exact mirrored
  | cons happening rest ih =>
    simp only [run, List.foldlM_cons, Option.bind_eq_bind, Option.bind_eq_some_iff] at ran
    obtain ⟨next, stepped, ran⟩ := ran
    refine ih (sound.step stepped) ?_ ran
    rcases session_step stepped with same | ⟨event, called⟩
    · rwa [same]
    · exact Session.mirrored_step called sound.consistent mirrored

theorem stage_of_isQuiet (quiet : project.IsQuiet) {call : Call} (member : call ∈ project.session.calls) :
    call.stage = .ended := by
  obtain ⟨reaction, inReactions, rfl⟩ := List.mem_map.mp member
  exact Reaction.stage_of_isDone (quiet.1 reaction inReactions)

/-- When all is quiet, every component has had a pass since it was edited last. -/
theorem Sound.exists_pass (sound : project.Sound) (quiet : project.IsQuiet) {component : Path}
    (known : project.session.ledger.isKnown component = true) :
    ∃ pass, Pass.last? component project.session.passes = some pass ∧ pass.result? ≠ none ∧
      ∀ edit ∈ project.edits, pass.serial < edit.stamp → edit.file.same component = false := by
  have idle {call : Call} (member : call ∈ project.session.calls) : call.stage = .ended :=
    stage_of_isQuiet quiet member
  by_cases edited : ∀ pass, Pass.last? component project.session.passes = some pass →
      ∃ edit ∈ project.edits, pass.serial < edit.stamp ∧ edit.file.same component = true
  · rcases sound.told component known edited with ⟨file, untold, _⟩ | ⟨call, inCalls, _, awaits⟩
    · rw [quiet.2] at untold
      exact absurd untold List.not_mem_nil
    · rw [idle inCalls] at awaits
      exact absurd awaits nofun
  · simp only [not_forall] at edited
    obtain ⟨pass, last, unedited⟩ := edited
    refine ⟨pass, last, fun isOpen => ?_, fun edit member later => ?_⟩
    · obtain ⟨call, inCalls, _, compiling⟩ := sound.ended component pass last isOpen
      rw [idle inCalls] at compiling
      exact absurd compiling nofun
    · rw [← Bool.not_eq_true]
      exact fun own => unedited ⟨edit, member, later, own⟩

theorem mem_of_concluded {compiled : CompiledQueries} (concluded : project.concluded? = some compiled) :
    ∃ final ∈ project.session.passes, project.isEditedSince final = false ∧
      final.result? = some (some compiled) := by
  unfold concluded? at concluded
  cases passes : project.session.passes with
  | nil => simp [passes] at concluded
  | cons final rest =>
    simp only [passes, Option.ite_none_left_eq_some, Bool.not_eq_true, Pass.compiled?,
      Option.join_eq_some_iff] at concluded
    exact ⟨final, List.mem_cons_self, concluded.1, concluded.2⟩

/-- A pass over sources that were not edited since tells what they give now. -/
theorem Sound.compileAll_eq (sound : project.Sound) {pass : Pass} (member : pass ∈ project.session.passes)
    (unedited : project.isEditedSince pass = false) {compiled : CompiledQueries}
    (succeeded : pass.result? = some (some compiled)) :
    (project.compiler.compileAll project.system).1 = .ok compiled := by
  have current : (project.compiler.compileAll project.system).1.toOption = some compiled :=
    (sound.honest pass member unedited _ succeeded).symm
  cases result : (project.compiler.compileAll project.system).1 with
  | error cause =>
    rw [result] at current
    exact absurd current nofun
  | ok now =>
    rw [result] at current
    exact congrArg Except.ok (Option.some.inj current)

instance (project : LiveProject) : Decidable project.IsQuiet := inferInstanceAs (Decidable (_ ∧ _))

/-! A page whose query spreads a fragment of another source. -/

def pagePath : Path := ⟨"/p/a.js"⟩

def partPath : Path := ⟨"/p/b.js"⟩

def pageFiles (field : String) : FileSystem where
  tree := .directory [
    ("s", .file (.text "type Query\x7ba:Int b:Int\x7d") 0),
    ("p", .directory [
      ("a.js", .file (.text "export const q=graphql\x60query A\x7b...F\x7d\x60") 1),
      ("b.js", .file (.text ("export const f=graphql\x60fragment F on Query\x7b" ++ field ++ "\x7d\x60")) 2)])]
  clock := 3

def pageProject : LiveProject := .ofConfig ⟨⟨"/p"⟩, ⟨"/s"⟩⟩ {} {} 100 (pageFiles "a")

/-- A call that goes on for a number of steps. -/
def moves (index count : Nat) : List Happening := List.replicate count (.event (.move index none))

/-- Both sources are registered; then the fragment is edited, and the watcher is told. -/
def partEdited : List Happening :=
  .event (.register pagePath) :: moves 0 10 ++ .event (.register partPath) :: moves 1 10 ++
    .edit partPath (pageFiles "b") :: .event (.sourceChanged partPath) :: moves 2 6

/-- After that the watcher is told of the page as well. -/
def bothTold : List Happening := partEdited ++ .event (.sourceChanged pagePath) :: moves 3 11

set_option maxRecDepth 20000 in
theorem bothTold_quiet :
    ∃ project ∈ pageProject.run bothTold, project.IsQuiet ∧ ∃ compiled ∈ project.concluded?,
      ∃ kept ∈ project.session.watcher.components.get? pagePath,
        ∀ pass ∈ Pass.last? pagePath project.session.passes,
          ∀ edit ∈ project.edits, pass.serial < edit.stamp → edit.file.same pagePath = true := by
  decide +kernel

end LiveProject

end SiteQuery.Watch
