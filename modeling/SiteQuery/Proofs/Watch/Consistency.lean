import SiteQuery.Proofs.Watch.Stages

/-!
What holds of the queries whatever calls are under way.

`Consistent` keeps calls for one component apart by its lock, and tells for every component which query the
watcher keeps for it: the one found last, but for a call that has not kept yet what it has found. `Mirrored` says
the same of the store against the watcher.
-/

namespace SiteQuery.Watch

open Compilation

namespace Pass

theorem lastCompiled?_congr (passes : List Pass) {a b : Path} (same : a.same b = true) :
    lastCompiled? a passes = lastCompiled? b passes := by
  simp only [lastCompiled?, Path.same_congr_right same]

theorem last?_cons (pass : Pass) (passes : List Pass) (path : Path) :
    last? path (pass :: passes) = if pass.component.same path then some pass else last? path passes := by
  by_cases same : pass.component.same path = true <;> simp [last?, same]

theorem lastCompiled?_cons (pass : Pass) (passes : List Pass) (path : Path) :
    lastCompiled? path (pass :: passes) =
      if pass.component.same path then pass.compiled?.or (lastCompiled? path passes) else lastCompiled? path passes := by
  by_cases same : pass.component.same path = true
  · cases compiled : pass.compiled? <;> simp [lastCompiled?, same, compiled]
  · simp [lastCompiled?, same]

theorem last?_finish (component : Path) (result : PassResult) (passes : List Pass) (path : Path) :
    last? path (finish component result passes) =
      if component.same path then (last? path passes).map fun pass => { pass with result? := some result }
      else last? path passes := by
  induction passes with
  | nil => simp [finish, last?]
  | cons pass rest ih =>
    unfold finish
    by_cases isLast : pass.component.same component = true
    · rw [if_pos isLast, last?_cons, last?_cons, Path.same_congr_left isLast]
      by_cases same : component.same path = true
      · rw [if_pos same, if_pos same, if_pos same]
        rfl
      · rw [if_neg same, if_neg same, if_neg same]
    · rw [if_neg isLast, last?_cons, last?_cons, ih]
      by_cases here : pass.component.same path = true
      · have apart : ¬ component.same path = true := by
          intro also
          rw [Path.same_comm] at also
          exact isLast (Path.same_trans here also)
        rw [if_pos here, if_neg apart, if_pos here]
      · rw [if_neg here, if_neg here]

theorem length_finish (component : Path) (result : PassResult) (passes : List Pass) :
    (finish component result passes).length = passes.length := by
  induction passes with
  | nil => rfl
  | cons pass rest ih =>
    unfold finish
    by_cases isLast : pass.component.same component = true
    · rw [if_pos isLast]
      rfl
    · rw [if_neg isLast, List.length_cons, List.length_cons, ih]

theorem mem_finish {component : Path} {result : PassResult} {passes : List Pass} {pass : Pass}
    (member : pass ∈ finish component result passes) :
    pass ∈ passes ∨ ∃ last, last? component passes = some last ∧ last ∈ passes ∧
      pass = { last with result? := some result } := by
  induction passes with
  | nil => simp [finish] at member
  | cons first rest ih =>
    unfold finish at member
    rw [last?_cons]
    by_cases isLast : first.component.same component = true
    · rw [if_pos isLast] at member ⊢
      rcases List.mem_cons.mp member with rfl | inRest
      · exact .inr ⟨first, rfl, List.mem_cons_self, rfl⟩
      · exact .inl (List.mem_cons_of_mem _ inRest)
    · rw [if_neg isLast] at member ⊢
      rcases List.mem_cons.mp member with rfl | inRest
      · exact .inl List.mem_cons_self
      · rcases ih inRest with old | ⟨last, found, inPasses, shape⟩
        · exact .inl (List.mem_cons_of_mem _ old)
        · exact .inr ⟨last, found, List.mem_cons_of_mem _ inPasses, shape⟩

theorem lastCompiled?_of_last? {path : Path} {passes : List Pass} {pass : Pass} {compiled : CompiledQueries}
    (last : last? path passes = some pass) (succeeded : pass.result? = some (some compiled)) :
    lastCompiled? path passes = some compiled := by
  induction passes with
  | nil => simp [last?] at last
  | cons first rest ih =>
    rw [last?_cons] at last
    rw [lastCompiled?_cons]
    by_cases same : first.component.same path = true
    · rw [if_pos same] at last ⊢
      cases last
      simp [compiled?, succeeded]
    · rw [if_neg same] at last ⊢
      exact ih last

/-- The end of a pass under way adds its result to those of its component. -/
theorem lastCompiled?_finish {component : Path} {passes : List Pass} {pass : Pass}
    (last : last? component passes = some pass) (isOpen : pass.result? = none) (result : PassResult) (path : Path) :
    lastCompiled? path (finish component result passes) =
      if component.same path then result.or (lastCompiled? path passes) else lastCompiled? path passes := by
  induction passes with
  | nil => simp [last?] at last
  | cons first rest ih =>
    rw [last?_cons] at last
    unfold finish
    by_cases isLast : first.component.same component = true
    · rw [if_pos isLast] at last ⊢
      obtain rfl := Option.some.inj last
      rw [lastCompiled?_cons, lastCompiled?_cons, Path.same_congr_left isLast]
      by_cases same : component.same path = true
      · rw [if_pos same, if_pos same, if_pos same]
        simp [compiled?, isOpen]
      · rw [if_neg same, if_neg same, if_neg same]
    · rw [if_neg isLast] at last ⊢
      rw [lastCompiled?_cons, lastCompiled?_cons, ih last]
      by_cases here : first.component.same path = true
      · have apart : ¬ component.same path = true := by
          intro also
          rw [Path.same_comm] at also
          exact isLast (Path.same_trans here also)
        rw [if_neg apart, if_pos here, if_neg apart]
      · rw [if_neg here, if_neg here]

end Pass

/-- A reaction under way, as far as queries are concerned. -/
structure Call where
  component : Path
  stage : Stage

structure Consistent (ledger : Ledger) (calls : List Call) : Prop where
  apart : calls.Pairwise fun a b =>
    a.stage.isHolding = true → b.stage.isHolding = true → a.component.same b.component = false
  locked : ∀ path, ledger.isLocked path = true ↔
    ∃ call ∈ calls, call.stage.isHolding = true ∧ call.component.same path = true
  underWay : ∀ call ∈ calls, call.stage = .compiling →
    ∃ pass, Pass.last? call.component ledger.passes = some pass ∧ pass.result? = none
  found : ∀ call ∈ calls, ∀ query?, call.stage = .found query? ∨ call.stage = .kept query? →
    ledger.lastFound? call.component = query?
  kept : ∀ path, (∀ call ∈ calls, call.component.same path = true → ∀ query?, call.stage ≠ .found query?) →
    ledger.kept? path = ledger.lastFound? path

/-- The store has what the watcher keeps, but for a call that has still to publish it. -/
def Mirrored (ledger : Ledger) (calls : List Call) : Prop :=
  ∀ path, (∀ call ∈ calls, call.component.same path = true → ∀ query?, call.stage ≠ .kept query?) →
    ledger.published? path = ledger.kept? path

namespace Ledger

variable (ledger : Ledger)

theorem kept?_congr {a b : Path} (same : a.same b = true) : ledger.kept? a = ledger.kept? b := by
  simp only [kept?, ledger.components.get?_congr same]

theorem lastFound?_congr {a b : Path} (same : a.same b = true) : ledger.lastFound? a = ledger.lastFound? b := by
  simp only [lastFound?, Pass.lastCompiled?_congr _ same, queryText?_congr _ same]

theorem kept?_insert (component : Path) (query? : Option String) (path : Path) :
    kept? { ledger with components := ledger.components.insert component ⟨component, query?⟩ } path =
      if component.same path then query? else ledger.kept? path := by
  simp only [kept?, ComponentMap.get?_insert]
  by_cases same : component.same path = true
  · rw [if_pos same, if_pos same]
    rfl
  · rw [if_neg same, if_neg same]

theorem kept?_of_unknown {component path : Path} (unknown : ledger.isKnown component = false)
    (same : component.same path = true) : ledger.kept? path = none := by
  have missing : ledger.components.get? component = none := by simpa [isKnown] using unknown
  rw [ledger.components.get?_congr same] at missing
  simp [kept?, missing]

theorem isKnown_congr {a b : Path} (same : a.same b = true) : ledger.isKnown a = ledger.isKnown b := by
  simp only [isKnown, ledger.components.get?_congr same]

theorem isKnown_insert (component : Path) (query? : Option String) (path : Path) :
    isKnown { ledger with components := ledger.components.insert component ⟨component, query?⟩ } path =
      (component.same path || ledger.isKnown path) := by
  simp only [isKnown, ComponentMap.get?_insert]
  by_cases same : component.same path = true <;> simp [same]

end Ledger

namespace Stage.Step

variable {component : Path} {result : PassResult} {ledger changed : Ledger} {stage next : Stage}

/-- Only the lock and its end change who holds one. -/
theorem locked_cases (step : Step component result ledger stage changed next) :
    (changed.locked = ledger.locked ∧ next.isHolding = stage.isHolding) ∨
      (ledger.isLocked component = false ∧ changed.locked = component :: ledger.locked ∧
        stage.isHolding = false ∧ next.isHolding = true) ∨
      (changed.locked = ledger.locked.filter (!·.same component) ∧ stage.isHolding = true ∧
        next.isHolding = false) := by
  cases step with
  | lock isFree => exact .inr (.inl ⟨isFree, rfl, rfl, rfl⟩)
  | unlock => exact .inr (.inr ⟨rfl, rfl, rfl⟩)
  | endPass => exact .inl ⟨rfl, by cases result <;> rfl⟩
  | _ => exact .inl ⟨rfl, rfl⟩

/-- Passes begin when a call is ready, and end where one was under way. -/
theorem passes_cases (step : Step component result ledger stage changed next) :
    (changed.passes = ledger.passes ∧ stage ≠ .ready ∧ stage ≠ .compiling ∧ next ≠ .compiling) ∨
      (changed.passes = ⟨component, ledger.passes.length, none⟩ :: ledger.passes ∧ stage = .ready ∧
        next = .compiling) ∨
      (changed.passes = Pass.finish component result ledger.passes ∧ stage = .compiling ∧
        next = .ofResult component result) := by
  cases step with
  | compile => exact .inr (.inl ⟨rfl, rfl, rfl⟩)
  | endPass => exact .inr (.inr ⟨rfl, rfl, rfl⟩)
  | _ => exact .inl ⟨rfl, by simp, by simp, by simp⟩

theorem kept?_cases (step : Step component result ledger stage changed next) (path : Path) :
    changed.kept? path = ledger.kept? path ∨
      ∃ query?, stage = .found query? ∧ next = .kept query? ∧ component.same path = true ∧
        changed.kept? path = query? := by
  cases step with
  | claim unknown =>
    left
    rw [Ledger.kept?_insert]
    by_cases same : component.same path = true
    · rw [if_pos same, ledger.kept?_of_unknown unknown same]
    · rw [if_neg same]
  | @keep query? =>
    rw [Ledger.kept?_insert]
    by_cases same : component.same path = true
    · exact .inr ⟨query?, rfl, rfl, same, if_pos same⟩
    · exact .inl (if_neg same)
  | _ => exact .inl rfl

theorem of_found {query? : Option String} (step : Step component result ledger (.found query?) changed next) :
    next = .found query? ∨ next = .kept query? ∨ ledger.kept? component = query? := by
  cases step with
  | differ => exact .inl rfl
  | keep => exact .inr (.inl rfl)
  | agree same => exact .inr (.inr same)

theorem found_origin {query? : Option String} (step : Step component result ledger stage changed next)
    (isFound : next = .found query? ∨ next = .kept query?) : stage = .found query? ∨ stage = .compiling := by
  cases step with
  | endPass => exact .inr rfl
  | _ => simp_all

theorem published?_cases (step : Step component result ledger stage changed next) (path : Path) :
    (changed.published? path = ledger.published? path ∧ ∀ query?, stage = .kept query? →
        component.same path = false) ∨
      ∃ query?, stage = .kept query? ∧ component.same path = true ∧ changed.published? path = query? ∧
        changed.kept? path = ledger.kept? path := by
  cases step with
  | announce => exact .inl ⟨PageComponent.queryOf?_insertMissing _ _ _, by simp⟩
  | @publish query? =>
    have published : (PageComponent.queryOf? (PageComponent.setQuery component query? ledger.published) path) =
        if component.same path then query? else ledger.published? path :=
      PageComponent.queryOf?_setQuery _ _ _ _
    by_cases same : component.same path = true
    · rw [if_pos same] at published
      exact .inr ⟨query?, rfl, same, published, rfl⟩
    · rw [if_neg same] at published
      exact .inl ⟨published, fun _ _ => by simpa using same⟩
  | _ => exact .inl ⟨rfl, by simp⟩

/-- No component is ever forgotten. -/
theorem isKnown_mono (step : Step component result ledger stage changed next) {path : Path}
    (known : ledger.isKnown path = true) : changed.isKnown path = true := by
  cases step with
  | claim => rw [Ledger.isKnown_insert, known, Bool.or_true]
  | keep => rw [Ledger.isKnown_insert, known, Bool.or_true]
  | _ => exact known

/-- Who has seen the component knows it. -/
theorem isKnown_next (step : Step component result ledger stage changed next)
    (before : stage.hasSeen = true → ledger.isKnown component = true) (seen : next.hasSeen = true) :
    changed.isKnown component = true := by
  cases step with
  | claim => rw [Ledger.isKnown_insert, Path.same_refl, Bool.true_or]
  | keep => rw [Ledger.isKnown_insert, Path.same_refl, Bool.true_or]
  | tracked known => exact known
  | again => exact absurd seen nofun
  | untracked => exact absurd seen nofun
  | unlock => exact absurd seen nofun
  | _ => exact before rfl

/-- Only a registration makes a component known, and goes on to its first pass. -/
theorem isKnown_origin (step : Step component result ledger stage changed next)
    (before : stage.hasSeen = true → ledger.isKnown component = true) {path : Path}
    (known : changed.isKnown path = true) :
    ledger.isKnown path = true ∨ component.same path = true ∧ next = .waiting := by
  cases step with
  | claim =>
    rw [Ledger.isKnown_insert, Bool.or_eq_true] at known
    rcases known with here | old
    · exact .inr ⟨here, rfl⟩
    · exact .inl old
  | keep =>
    rw [Ledger.isKnown_insert, Bool.or_eq_true] at known
    rcases known with here | old
    · exact .inl ((ledger.isKnown_congr here).symm.trans (before rfl))
    · exact .inl old
  | _ => exact .inl known

end Stage.Step

namespace Consistent

variable {component : Path} {result : PassResult} {ledger changed : Ledger} {stage next : Stage}
  {others calls : List Call}

theorem perm {sorted : List Call} (consistent : Consistent ledger calls) (same : calls.Perm sorted) :
    Consistent ledger sorted where
  apart := by
    refine (same.pairwise_iff ?_).mp consistent.apart
    intro a b apart holdsB holdsA
    rw [Path.same_comm]
    exact apart holdsA holdsB
  locked path := by simp only [consistent.locked path, same.mem_iff]
  underWay call member := consistent.underWay call (same.mem_iff.mpr member)
  found call member := consistent.found call (same.mem_iff.mpr member)
  kept path noneFound := consistent.kept path fun call member => noneFound call (same.mem_iff.mp member)

/-- No other call holds the lock of the component that this one holds. -/
theorem others_apart (consistent : Consistent ledger (⟨component, stage⟩ :: others))
    (holding : stage.isHolding = true) {call : Call} (member : call ∈ others)
    (alsoHolding : call.stage.isHolding = true) : component.same call.component = false :=
  (List.pairwise_cons.mp consistent.apart).1 call member holding alsoHolding

theorem apart_step (consistent : Consistent ledger (⟨component, stage⟩ :: others))
    (step : Stage.Step component result ledger stage changed next) :
    (⟨component, next⟩ :: others).Pairwise fun a b =>
      a.stage.isHolding = true → b.stage.isHolding = true → a.component.same b.component = false := by
  refine List.pairwise_cons.mpr ⟨?_, (List.pairwise_cons.mp consistent.apart).2⟩
  intro call member nextHolding alsoHolding
  rcases step.locked_cases with ⟨_, holding⟩ | ⟨isFree, _, _, _⟩ | ⟨_, _, released⟩
  · exact consistent.others_apart (holding ▸ nextHolding) member alsoHolding
  · rw [← Bool.not_eq_true]
    intro same
    rw [Path.same_comm] at same
    have taken := (consistent.locked component).mpr ⟨call, List.mem_cons_of_mem _ member, alsoHolding, same⟩
    rw [isFree] at taken
    exact Bool.false_ne_true taken
  · rw [released] at nextHolding
    exact absurd nextHolding Bool.false_ne_true

theorem locked_step (consistent : Consistent ledger (⟨component, stage⟩ :: others))
    (step : Stage.Step component result ledger stage changed next) (path : Path) :
    changed.isLocked path = true ↔
      ∃ call ∈ ⟨component, next⟩ :: others, call.stage.isHolding = true ∧ call.component.same path = true := by
  have before := consistent.locked path
  simp only [List.mem_cons, exists_eq_or_imp] at before ⊢
  rcases step.locked_cases with ⟨same, holding⟩ | ⟨_, locked, _, holding⟩ | ⟨unlocked, held, released⟩
  · rw [holding, ← before, Ledger.isLocked, same, Ledger.isLocked]
  · rw [holding, Ledger.isLocked, locked, List.any_cons, Bool.or_eq_true]
    rw [Ledger.isLocked] at before
    simp_all
  · rw [Ledger.isLocked, unlocked, released, List.any_filter]
    rw [Ledger.isLocked, held] at before
    by_cases here : component.same path = true
    · have nobody : ∀ call ∈ others, call.stage.isHolding = true → call.component.same path = false := by
        intro call member holding
        have apart := consistent.others_apart held member holding
        rw [Path.same_congr_left here, Path.same_comm] at apart
        exact apart
      constructor
      · intro isLocked
        obtain ⟨other, _, both⟩ := List.any_eq_true.mp isLocked
        rw [Bool.and_eq_true, Path.same_congr_right here] at both
        simp_all
      · rintro (⟨impossible, _⟩ | ⟨call, member, holding, same⟩)
        · exact absurd impossible Bool.false_ne_true
        · rw [nobody call member holding] at same
          exact absurd same Bool.false_ne_true
    · have keeps : (ledger.locked.any fun other => !other.same component && other.same path) =
          ledger.locked.any (·.same path) := by
        congr 1
        funext other
        by_cases same : other.same path = true
        · have apart : other.same component = false := by
            rw [← Bool.not_eq_true]
            intro also
            rw [Path.same_comm] at also
            exact here (Path.same_trans also same)
          rw [apart, same]
          rfl
        · simp [same]
      rw [keeps, before]
      simp [here]

theorem underWay_step (consistent : Consistent ledger (⟨component, stage⟩ :: others))
    (step : Stage.Step component result ledger stage changed next) :
    ∀ call ∈ ⟨component, next⟩ :: others, call.stage = .compiling →
      ∃ pass, Pass.last? call.component changed.passes = some pass ∧ pass.result? = none := by
  intro call member compiling
  rcases List.mem_cons.mp member with rfl | inOthers
  · rcases step.passes_cases with ⟨_, _, _, notCompiling⟩ | ⟨begun, _, _⟩ | ⟨_, _, after⟩
    · exact absurd compiling notCompiling
    · rw [begun, Pass.last?_cons, if_pos (Path.same_refl component)]
      exact ⟨_, rfl, rfl⟩
    · rw [after] at compiling
      cases result <;> simp [Stage.ofResult] at compiling
  · have before := consistent.underWay call (List.mem_cons_of_mem _ inOthers) compiling
    have holding : call.stage.isHolding = true := by rw [compiling]; rfl
    rcases step.passes_cases with ⟨same, _⟩ | ⟨begun, isReady, _⟩ | ⟨ended, isCompiling, _⟩
    · rwa [same]
    · subst isReady
      have apart := consistent.others_apart rfl inOthers holding
      rwa [begun, Pass.last?_cons, if_neg (by simp [apart])]
    · subst isCompiling
      have apart := consistent.others_apart rfl inOthers holding
      rwa [ended, Pass.last?_finish, if_neg (by simp [apart])]

/-- Only the end of a pass can change what was found last, and for its component only. -/
theorem lastFound?_step (consistent : Consistent ledger (⟨component, stage⟩ :: others))
    (step : Stage.Step component result ledger stage changed next) (path : Path) :
    (changed.lastFound? path = ledger.lastFound? path ∧ (stage = .compiling → component.same path = true →
        result = none)) ∨
      ∃ compiled, stage = .compiling ∧ component.same path = true ∧
        next = .found (queryText? compiled component) ∧ changed.lastFound? path = queryText? compiled path := by
  rcases step.passes_cases with ⟨same, _, notCompiling, _⟩ | ⟨begun, rfl, _⟩ | ⟨ended, rfl, rfl⟩
  · exact .inl ⟨by simp only [Ledger.lastFound?, same], fun compiling => absurd compiling notCompiling⟩
  · refine .inl ⟨?_, nofun⟩
    simp only [Ledger.lastFound?, begun, Pass.lastCompiled?_cons]
    simp [Pass.compiled?]
  · obtain ⟨pass, last, isOpen⟩ := consistent.underWay _ List.mem_cons_self rfl
    have gives := Pass.lastCompiled?_finish last isOpen result path
    rw [← ended] at gives
    by_cases same : component.same path = true
    · rw [if_pos same] at gives
      cases result with
      | none => exact .inl ⟨by simp [Ledger.lastFound?, gives], fun _ _ => rfl⟩
      | some compiled => exact .inr ⟨compiled, rfl, same, rfl, by simp [Ledger.lastFound?, gives]⟩
    · rw [if_neg same] at gives
      exact .inl ⟨by simp only [Ledger.lastFound?, gives], fun _ also => absurd also same⟩

theorem found_step (consistent : Consistent ledger (⟨component, stage⟩ :: others))
    (step : Stage.Step component result ledger stage changed next) :
    ∀ call ∈ ⟨component, next⟩ :: others, ∀ query?, call.stage = .found query? ∨ call.stage = .kept query? →
      changed.lastFound? call.component = query? := by
  intro call member query? isFound
  rcases List.mem_cons.mp member with rfl | inOthers
  · rcases consistent.lastFound?_step step component with ⟨same, failed⟩ | ⟨compiled, _, _, after, last⟩
    · rcases step.found_origin isFound with rfl | rfl
      · rw [same]
        exact consistent.found _ List.mem_cons_self query? (.inl rfl)
      · rcases step.passes_cases with ⟨_, _, notCompiling, _⟩ | ⟨_, impossible, _⟩ | ⟨_, _, after⟩
        · exact absurd rfl notCompiling
        · exact absurd impossible nofun
        · rw [after, failed rfl (Path.same_refl component)] at isFound
          exact absurd isFound (by simp [Stage.ofResult])
    · rw [last]
      simpa [after] using isFound
  · have before := consistent.found call (List.mem_cons_of_mem _ inOthers) query? isFound
    have holding : call.stage.isHolding = true := by rcases isFound with h | h <;> rw [h] <;> rfl
    rcases consistent.lastFound?_step step call.component with ⟨same, _⟩ | ⟨_, rfl, also, _, _⟩
    · rwa [same]
    · rw [consistent.others_apart rfl inOthers holding] at also
      exact absurd also Bool.false_ne_true

theorem kept_step (consistent : Consistent ledger (⟨component, stage⟩ :: others))
    (step : Stage.Step component result ledger stage changed next) (path : Path)
    (noneFound : ∀ call ∈ ⟨component, next⟩ :: others, call.component.same path = true →
      ∀ query?, call.stage ≠ .found query?) :
    changed.kept? path = changed.lastFound? path := by
  have nextNotFound := noneFound _ List.mem_cons_self
  rcases consistent.lastFound?_step step path with ⟨sameFound, _⟩ | ⟨_, _, here, isFound, _⟩
  · rw [sameFound]
    rcases step.kept?_cases path with sameKept | ⟨query?, rfl, rfl, here, kept⟩
    · rw [sameKept]
      by_cases agreed : component.same path = true ∧ ∃ query?, stage = .found query?
      · obtain ⟨here, query?, rfl⟩ := agreed
        have before := consistent.found _ List.mem_cons_self query? (.inl rfl)
        rcases step.of_found with stays | keeps | agrees
        · exact absurd stays (nextNotFound here query?)
        · subst keeps
          cases step
          rw [← before, ledger.lastFound?_congr here, Ledger.kept?_insert, if_pos here] at sameKept
          exact sameKept.symm
        · rw [← ledger.kept?_congr here, ← ledger.lastFound?_congr here, agrees, before]
      · apply consistent.kept path
        intro call member same query? isFound
        rcases List.mem_cons.mp member with rfl | inOthers
        · exact agreed ⟨same, query?, isFound⟩
        · exact noneFound call (List.mem_cons_of_mem _ inOthers) same query? isFound
    · rw [kept, ← ledger.lastFound?_congr here]
      exact (consistent.found _ List.mem_cons_self query? (.inl rfl)).symm
  · exact absurd isFound (nextNotFound here _)

theorem step (consistent : Consistent ledger (⟨component, stage⟩ :: others))
    (step : Stage.Step component result ledger stage changed next) :
    Consistent changed (⟨component, next⟩ :: others) where
  apart := consistent.apart_step step
  locked := consistent.locked_step step
  underWay := consistent.underWay_step step
  found := consistent.found_step step
  kept := consistent.kept_step step

/-- A call that begins holds nothing. -/
theorem cons (consistent : Consistent ledger calls) {call : Call} (idle : call.stage = .unseen ∨ call.stage = .looking) :
    Consistent ledger (call :: calls) := by
  have released : call.stage.isHolding = false := by rcases idle with h | h <;> rw [h] <;> rfl
  refine ⟨?_, ?_, ?_, ?_, ?_⟩
  · refine List.pairwise_cons.mpr ⟨fun other _ holding => ?_, consistent.apart⟩
    rw [released] at holding
    exact absurd holding Bool.false_ne_true
  · intro path
    simp [consistent.locked path, released]
  · intro other member compiling
    rcases List.mem_cons.mp member with rfl | inCalls
    · rw [compiling] at idle
      simp at idle
    · exact consistent.underWay other inCalls compiling
  · intro other member query? isFound
    rcases List.mem_cons.mp member with rfl | inCalls
    · rcases idle with h | h <;> simp [h] at isFound
    · exact consistent.found other inCalls query? isFound
  · intro path noneFound
    exact consistent.kept path fun other member => noneFound other (List.mem_cons_of_mem _ member)

theorem append (consistent : Consistent ledger calls) {begun : List Call}
    (idle : ∀ call ∈ begun, call.stage = .unseen ∨ call.stage = .looking) : Consistent ledger (begun ++ calls) := by
  induction begun with
  | nil => exact consistent
  | cons call rest ih =>
    exact (ih fun other member => idle other (List.mem_cons_of_mem _ member)).cons (idle call List.mem_cons_self)

end Consistent

namespace Mirrored

variable {component : Path} {result : PassResult} {ledger changed : Ledger} {stage next : Stage}
  {others calls : List Call}

theorem perm {sorted : List Call} (mirrored : Mirrored ledger calls) (same : calls.Perm sorted) :
    Mirrored ledger sorted :=
  fun path noneKept => mirrored path fun call member => noneKept call (same.mem_iff.mp member)

theorem append (mirrored : Mirrored ledger calls) (begun : List Call) : Mirrored ledger (begun ++ calls) :=
  fun path noneKept => mirrored path fun other member => noneKept other (List.mem_append_right _ member)

theorem step (mirrored : Mirrored ledger (⟨component, stage⟩ :: others))
    (consistent : Consistent ledger (⟨component, stage⟩ :: others))
    (step : Stage.Step component result ledger stage changed next) :
    Mirrored changed (⟨component, next⟩ :: others) := by
  intro path noneKept
  rcases step.published?_cases path with ⟨samePublished, notPublishing⟩ | ⟨query?, rfl, here, published, sameKept⟩
  · rw [samePublished]
    rcases step.kept?_cases path with sameKept | ⟨query?, _, isKept, here, _⟩
    · rw [sameKept]
      apply mirrored path
      intro call member same query? isKept
      rcases List.mem_cons.mp member with rfl | inOthers
      · rw [notPublishing query? isKept] at same
        exact Bool.false_ne_true same
      · exact noneKept call (List.mem_cons_of_mem _ inOthers) same query? isKept
    · exact absurd isKept (noneKept _ List.mem_cons_self here query?)
  · -- The call itself holds the lock, so that no other one has found anything for the component.
    have kept : ledger.kept? path = ledger.lastFound? path := by
      apply consistent.kept path
      intro call member same other isFound
      rcases List.mem_cons.mp member with rfl | inOthers
      · exact absurd isFound nofun
      · have apart := consistent.others_apart rfl inOthers (by rw [isFound]; rfl)
        rw [Path.same_congr_left here, Path.same_comm, same] at apart
        exact Bool.false_ne_true apart.symm
    rw [published, sameKept, kept, ← ledger.lastFound?_congr here]
    exact (consistent.found _ List.mem_cons_self query? (.inr rfl)).symm

end Mirrored

end SiteQuery.Watch
