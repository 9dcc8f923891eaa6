import SiteQuery.Proofs.Watch.Bootstrap

/-!
What is known of the first passes when bootstrap is over.

A component that is known has had a pass, or the registration that has made it known is on its way to the end of one:
`Session.Accounted`. Where it was known when the timer was armed, that registration has taken the delay at least when
bootstrap is over: `Session.extracted_of_finished`. No registration waits for the passes of the others, so there may be
such components: `Session.unextracted_part`.
-/

namespace SiteQuery.Watch

namespace Pass

/-- A pass for the component is over, whatever it gave. -/
def anyOver (path : Path) (passes : List Pass) : Bool :=
  passes.any fun pass => pass.component.same path && pass.result?.isSome

theorem anyOver_cons (pass : Pass) (passes : List Pass) (path : Path) :
    anyOver path (pass :: passes) = (pass.component.same path && pass.result?.isSome || anyOver path passes) := rfl

theorem anyOver_finish (component : Path) (result : PassResult) (passes : List Pass) (path : Path) :
    anyOver path (finish component result passes) =
      (component.same path && (last? component passes).isSome || anyOver path passes) := by
  induction passes with
  | nil => simp [finish, anyOver, last?]
  | cons pass rest ih =>
    unfold finish
    rw [last?_cons, anyOver_cons]
    by_cases isLast : pass.component.same component = true
    · rw [if_pos isLast, if_pos isLast, anyOver_cons, Path.same_congr_left isLast]
      cases component.same path <;> simp
    · rw [if_neg isLast, if_neg isLast, anyOver_cons, ih]
      cases pass.component.same path && pass.result?.isSome <;> simp

theorem anyOver_record (reaction : Reaction) (result : PassResult) {passes : List Pass} {path : Path}
    (found : anyOver path passes = true) : anyOver path (reaction.record result passes) = true := by
  unfold Reaction.record
  split
  · rw [anyOver_cons, found, Bool.or_true]
  · rw [anyOver_finish, found, Bool.or_true]
  · exact found

end Pass

/-- A registration that has made its component known and whose pass is not over. -/
def Registration.isExtracting : Registration → Bool
  | announce | lock | compile | endPass => true
  | _ => false

def Reaction.isExtracting : Reaction → Bool
  | registration _ next => next.isExtracting
  | change _ _ => false

/-- The registration is to make its component known. -/
def Reaction.claims (watcher : Watcher) : Reaction → Bool
  | registration component .claim => (watcher.components.get? component).isNone
  | _ => false

namespace Reaction

variable {result : PassResult} {watcher changed : Watcher} {reaction next : Reaction}

theorem stage_of_isFresh (fresh : reaction.isFresh = true) :
    reaction.call.stage = .unseen ∨ reaction.call.stage = .looking := by
  cases reaction with
  | registration component stage =>
    cases stage with
    | claim => exact .inl rfl
    | _ => cases fresh
  | change path stage =>
    cases stage with
    | look => exact .inr rfl
    | _ => cases fresh

theorem not_isExtracting_of_isFresh (fresh : reaction.isFresh = true) : ¬ reaction.isExtracting = true := by
  cases reaction with
  | registration component stage =>
    cases stage with
    | claim => rintro ⟨⟩
    | _ => cases fresh
  | change path stage => rintro ⟨⟩

/-- Who is to make its component known has not found it so. -/
theorem isKnown_of_claims (claims : reaction.claims watcher = true) {path : Path}
    (same : reaction.component.same path = true) (passes : List Pass) :
    (watcher.ledger passes).isKnown path = false := by
  rw [← Ledger.isKnown_congr _ same]
  cases reaction with
  | registration component stage =>
    cases stage with
    | claim =>
      have missing : watcher.components.get? component = none := by simpa [Reaction.claims] using claims
      simp [Ledger.isKnown, Watcher.ledger, Reaction.component, missing]
    | _ => cases claims
  | change other stage => cases claims

theorem isExtracting_origin (step : reaction.step result watcher = some (changed, next))
    (extracting : next.isExtracting = true) : reaction.isExtracting = true ∨ reaction.claims watcher = true := by
  cases reaction with
  | change path stage =>
    simp only [Reaction.step, Option.map_eq_some_iff, Prod.mk.injEq, Prod.exists] at step
    obtain ⟨_, _, _, -, rfl⟩ := step
    cases extracting
  | registration component stage =>
    simp only [Reaction.step, Option.map_eq_some_iff, Prod.mk.injEq, Prod.exists] at step
    obtain ⟨_, after, moved, rfl, rfl⟩ := step
    cases stage with
    | claim =>
      simp only [Registration.step] at moved
      cases found : watcher.components.get? component with
      | some old =>
        simp only [found, Option.some.injEq, Prod.mk.injEq] at moved
        obtain ⟨-, rfl⟩ := moved
        cases extracting
      | none => exact .inr (by simp [claims, found])
    | announce | lock | compile | endPass => exact .inl rfl
    | checkStage =>
      simp only [Registration.step, Option.some.injEq, Prod.mk.injEq] at moved
      obtain ⟨-, rfl⟩ := moved
      by_cases finished : watcher.isFinished = true <;>
        simp [isExtracting, finished, Registration.isExtracting] at extracting
    | keep query? => cases moved; cases extracting
    | publish query? => cases moved; cases extracting
    | armTimer => cases moved; cases extracting
    | unlock => cases moved; cases extracting
    | done isNew => simp [Registration.step] at moved

/-- The end of its pass is what a registration goes on to. -/
theorem isExtracting_next (step : reaction.step result watcher = some (changed, next))
    (extracting : reaction.isExtracting = true) : next.isExtracting = true ∨ reaction.stage = .compiling := by
  cases reaction with
  | change path stage => cases extracting
  | registration component stage =>
    simp only [Reaction.step, Option.map_eq_some_iff, Prod.mk.injEq, Prod.exists] at step
    obtain ⟨_, after, moved, rfl, rfl⟩ := step
    cases stage with
    | announce => cases moved; exact .inl rfl
    | lock =>
      simp only [Registration.step, Option.ite_none_left_eq_some, Option.some.injEq, Prod.mk.injEq] at moved
      obtain ⟨_, -, rfl⟩ := moved
      exact .inl rfl
    | compile => cases moved; exact .inl rfl
    | endPass => exact .inr rfl
    | _ => cases extracting

/-- A registration that becomes known goes on to its pass. -/
theorem isKnown_origin (step : reaction.step result watcher = some (changed, next)) (passes : List Pass)
    (seen : reaction.stage.hasSeen = true → (watcher.ledger passes).isKnown reaction.component = true) {path : Path}
    (known : (changed.ledger (reaction.record result passes)).isKnown path = true) :
    (watcher.ledger passes).isKnown path = true ∨ reaction.component.same path = true ∧ next.isExtracting = true := by
  rcases (stage_step passes step).2.isKnown_origin seen known with before | ⟨same, waits⟩
  · exact .inl before
  · cases reaction with
    | registration component stage =>
      simp only [Reaction.step, Option.map_eq_some_iff, Prod.mk.injEq, Prod.exists] at step
      obtain ⟨_, after, moved, rfl, rfl⟩ := step
      cases after with
      | announce | lock => exact .inr ⟨same, rfl⟩
      | _ => cases waits
    | change other stage =>
      simp only [Reaction.step, Option.map_eq_some_iff, Prod.mk.injEq, Prod.exists] at step
      obtain ⟨_, after, moved, rfl, rfl⟩ := step
      left
      cases stage with
      | look =>
        simp only [Change.step] at moved
        cases found : watcher.components.get? other <;>
          simp only [found, Option.some.injEq, Prod.mk.injEq] at moved <;> obtain ⟨rfl, rfl⟩ := moved <;> exact known
      | endPass => cases result <;> cases moved <;> cases waits
      | lock =>
        simp only [Change.step, Option.ite_none_left_eq_some, Option.some.injEq, Prod.mk.injEq] at moved
        obtain ⟨_, -, rfl⟩ := moved
        cases waits
      | compare query? =>
        simp only [Change.step, Option.some.injEq, Prod.mk.injEq] at moved
        obtain ⟨rfl, -⟩ := moved
        exact known
      | run component paths pages => cases pages <;> cases moved <;> cases waits
      | done outcome => simp [Change.step] at moved
      | _ => cases moved; cases waits

end Reaction

/-- A registration makes its component known. -/
def Moment.Claims (moment : Moment) (index : Nat) : Prop :=
  ∃ result reaction, moment.tick = .turn (.event (.move index result)) ∧
    moment.before.reactions[index]? = some reaction ∧ reaction.claims moment.before.watcher = true

namespace Session

def isKnown (session : Session) (component : Path) : Bool := session.ledger.isKnown component

/-- A pass for the component was made, and it is over. -/
def hasCompiled (session : Session) (component : Path) : Bool := Pass.anyOver component session.passes

/-- The registration at this place has made the component known, and its pass is not over. -/
def IsExtracting (session : Session) (index : Nat) (component : Path) : Prop :=
  ∃ reaction, session.reactions[index]? = some reaction ∧ reaction.component.same component = true ∧
    reaction.isExtracting = true

/-- The call has made the component known, no later than anything that has found it so. -/
def ClaimedIn (past : List Moment) (index : Nat) (component : Path) : Prop :=
  ∃ claiming ∈ past, claiming.Claims index ∧
    ∀ other ∈ past, other.before.isKnown component = true → claiming.time ≤ other.time

/-- What holds of the first passes along every run. -/
structure Accounted (past : List Moment) (session : Session) : Prop where
  consistent : Consistent session.ledger session.calls
  seen : ∀ call ∈ session.calls, call.stage.hasSeen = true → session.ledger.isKnown call.component = true
  known : ∀ moment ∈ past, ∀ component, moment.before.isKnown component = true → session.isKnown component = true
  extracted : ∀ component, session.isKnown component = true →
    session.hasCompiled component = true ∨ ∃ index, session.IsExtracting index component
  claimed : ∀ index component, session.IsExtracting index component → ClaimedIn past index component

variable {session : Session} {past : List Moment} {delay : Nat}

theorem isKnown_step {index : Nat} {result : PassResult} {after : Session}
    (moved : session.move index result = some after) {component : Path} (known : session.isKnown component = true) :
    after.isKnown component = true := by
  obtain ⟨_, _, _, -, -, -, step⟩ := stage_step_move moved
  exact step.isKnown_mono known

theorem ClaimedIn.append {index : Nat} {component : Path} (claimed : ClaimedIn past index component) {next : Moment}
    (later : ∀ moment ∈ past, moment.time ≤ next.time) : ClaimedIn (past ++ [next]) index component := by
  obtain ⟨claiming, member, claims, first⟩ := claimed
  refine ⟨claiming, List.mem_append_left _ member, claims, fun other inPast known => ?_⟩
  rcases List.mem_append.mp inPast with old | new
  · exact first other old known
  · obtain rfl := List.mem_singleton.mp new
    exact later claiming member

namespace Accounted

theorem known_append (accounted : Accounted past session) {tick : Tick} {after : Session}
    (stays : ∀ component, session.isKnown component = true → after.isKnown component = true) :
    ∀ moment ∈ past ++ [⟨session, tick, after⟩], ∀ component, moment.before.isKnown component = true →
      after.isKnown component = true := by
  intro moment member component known
  rcases List.mem_append.mp member with old | new
  · exact stays component (accounted.known moment old component known)
  · obtain rfl := List.mem_singleton.mp new
    exact stays component known

/-- Calls may begin, and nothing else happens to queries. -/
theorem stand (accounted : Accounted past session) (times : ∀ moment ∈ past, moment.time ≤ session.watcher.now)
    {tick : Tick} {after : Session} {begun : List Reaction} (sameLedger : after.ledger = session.ledger)
    (reactions : after.reactions = session.reactions ++ begun) (fresh : ∀ reaction ∈ begun, reaction.isFresh = true) :
    Accounted (past ++ [⟨session, tick, after⟩]) after := by
  have samePasses : after.passes = session.passes := congrArg Ledger.passes sameLedger
  have calls : after.calls = session.calls ++ begun.map Reaction.call := by simp [Session.calls, reactions]
  have idle : ∀ call ∈ begun.map Reaction.call, call.stage = .unseen ∨ call.stage = .looking := by
    intro call member
    obtain ⟨reaction, inBegun, rfl⟩ := List.mem_map.mp member
    exact Reaction.stage_of_isFresh (fresh reaction inBegun)
  refine ⟨?_, ?_, ?_, ?_, ?_⟩
  · rw [sameLedger, calls]
    exact (accounted.consistent.append idle).perm List.perm_append_comm
  · rw [sameLedger, calls]
    intro call member hasSeen
    rcases List.mem_append.mp member with old | new
    · exact accounted.seen call old hasSeen
    · rcases idle call new with unseen | looking
      · rw [unseen] at hasSeen
        cases hasSeen
      · rw [looking] at hasSeen
        cases hasSeen
  · exact accounted.known_append fun component known => by rwa [isKnown, sameLedger]
  · intro component known
    rw [isKnown, sameLedger] at known
    rw [hasCompiled, samePasses]
    rcases accounted.extracted component known with compiled | ⟨index, reaction, here, extracting⟩
    · exact .inl compiled
    · obtain ⟨bound, -⟩ := List.getElem?_eq_some_iff.mp here
      exact .inr ⟨index, reaction, by rw [reactions, List.getElem?_append_left bound, here], extracting⟩
  · rintro index component ⟨reaction, here, same, extracting⟩
    rw [reactions] at here
    by_cases bound : index < session.reactions.length
    · rw [List.getElem?_append_left bound] at here
      exact (accounted.claimed index component ⟨reaction, here, same, extracting⟩).append times
    · rw [List.getElem?_append_right (Nat.le_of_not_lt bound)] at here
      exact absurd extracting (Reaction.not_isExtracting_of_isFresh (fresh reaction (List.mem_of_getElem? here)))

section Move

variable {index : Nat} {result : PassResult} {reaction next : Reaction} {watcher : Watcher} {component : Path}

/-- A registration is followed from one step to the next, up to the end of its pass. -/
theorem extracted_move (accounted : Accounted past session) (here : session.reactions[index]? = some reaction)
    (step : reaction.step result session.watcher = some (watcher, next)) {after : Session}
    (isAfter : after = ⟨watcher, session.reactions.set index next, reaction.record result session.passes⟩)
    (known : after.isKnown component = true) :
    after.hasCompiled component = true ∨ ∃ call, after.IsExtracting call component := by
  obtain ⟨sameComponent, -⟩ := Reaction.stage_step session.passes step
  obtain ⟨bound, -⟩ := List.getElem?_eq_some_iff.mp here
  have atIndex : after.reactions[index]? = some next := by simp [isAfter, bound]
  have inCalls : reaction.call ∈ session.calls := List.mem_map_of_mem (List.mem_of_getElem? here)
  rw [isAfter] at known
  rcases Reaction.isKnown_origin step session.passes (accounted.seen reaction.call inCalls) known with
    wasKnown | ⟨same, extracting⟩
  · rcases accounted.extracted component wasKnown with compiled | ⟨other, old, inReactions, same, extracting⟩
    · left
      rw [hasCompiled, isAfter]
      exact Pass.anyOver_record reaction result compiled
    · by_cases isIndex : index = other
      · subst isIndex
        cases here.symm.trans inReactions
        rcases Reaction.isExtracting_next step extracting with stays | compiling
        · exact .inr ⟨index, next, atIndex, by rwa [sameComponent], stays⟩
        · left
          obtain ⟨pass, last, -⟩ := accounted.consistent.underWay reaction.call inCalls compiling
          have isLast : Pass.last? reaction.component session.passes = some pass := last
          rw [hasCompiled, isAfter, Reaction.record, compiling, Pass.anyOver_finish, same, isLast]
          rfl
      · exact .inr ⟨other, old, by rwa [isAfter, List.getElem?_set_ne isIndex], same, extracting⟩
  · exact .inr ⟨index, next, atIndex, by rwa [sameComponent], extracting⟩

/-- Who makes a component known now is the first to know it. -/
theorem claimedIn_of_claims (accounted : Accounted past session) (here : session.reactions[index]? = some reaction)
    (claims : reaction.claims session.watcher = true) (same : reaction.component.same component = true)
    (after : Session) :
    ClaimedIn (past ++ [⟨session, .turn (.event (.move index result)), after⟩]) index component := by
  refine ⟨_, List.mem_append_right past (List.mem_singleton_self _), ⟨result, reaction, rfl, here, claims⟩, ?_⟩
  intro earlier member wasKnown
  rcases List.mem_append.mp member with old | new
  · have unknown := Reaction.isKnown_of_claims claims same session.passes
    have known : session.ledger.isKnown component = true := accounted.known earlier old component wasKnown
    exact absurd (unknown.symm.trans known) Bool.false_ne_true
  · obtain rfl := List.mem_singleton.mp new
    exact Nat.le_refl _

theorem move (accounted : Accounted past session) (times : ∀ moment ∈ past, moment.time ≤ session.watcher.now)
    (here : session.reactions[index]? = some reaction)
    (step : reaction.step result session.watcher = some (watcher, next)) {after : Session}
    (isAfter : after = ⟨watcher, session.reactions.set index next, reaction.record result session.passes⟩) :
    Accounted (past ++ [⟨session, .turn (.event (.move index result)), after⟩]) after := by
  have moved : session.move index result = some after := by simp [Session.move, here, step, isAfter]
  have stepped : session.step (.move index result) = some after := moved
  have inCalls : reaction.call ∈ session.calls := List.mem_map_of_mem (List.mem_of_getElem? here)
  refine ⟨consistent_step stepped accounted.consistent, ?_, ?_, ?_, ?_⟩
  · obtain ⟨_, others, after, isHere, before, afterwards, moves⟩ := stage_step_move moved
    cases here.symm.trans isHere
    intro call member hasSeen
    rcases List.mem_cons.mp (afterwards.mem_iff.mp member) with rfl | inOthers
    · exact moves.isKnown_next (accounted.seen reaction.call inCalls) hasSeen
    · exact moves.isKnown_mono (accounted.seen call (before.mem_iff.mpr (List.mem_cons_of_mem _ inOthers)) hasSeen)
  · exact accounted.known_append fun component known => isKnown_step moved known
  · exact fun component known => accounted.extracted_move here step isAfter known
  · rintro other component ⟨moving, inReactions, same, extracting⟩
    rw [isAfter] at inReactions
    by_cases isIndex : index = other
    · subst isIndex
      obtain ⟨bound, -⟩ := List.getElem?_eq_some_iff.mp here
      rw [List.getElem?_set_self bound] at inReactions
      cases inReactions
      rw [(Reaction.stage_step session.passes step).1] at same
      rcases Reaction.isExtracting_origin step extracting with wasExtracting | claims
      · exact (accounted.claimed index component ⟨reaction, here, same, wasExtracting⟩).append times
      · exact accounted.claimedIn_of_claims here claims same after
    · rw [List.getElem?_set_ne isIndex] at inReactions
      exact (accounted.claimed other component ⟨moving, inReactions, same, extracting⟩).append times

end Move

theorem tick (accounted : Accounted past session) (times : ∀ moment ∈ past, moment.time ≤ session.watcher.now)
    {tick : Tick} {after : Session} (ticked : session.tick tick = some after) :
    Accounted (past ++ [⟨session, tick, after⟩]) after := by
  cases goes_tick ticked with
  | arm here _ step => exact accounted.move times here step rfl
  | go here _ _ step => exact accounted.move times here step rfl
  | stand _ _ sameLedger reactions fresh => exact accounted.stand times sameLedger reactions fresh
  | wait => exact accounted.stand times (ledger_wait session _) (List.append_nil _).symm nofun
  | expire => exact accounted.stand times (ledger_expire session _) (List.append_nil _).symm nofun

end Accounted

theorem accounted_ofStore (store : Store) (delay : Nat) : Accounted [] (ofStore store delay) where
  consistent := consistent_ofStore store delay
  seen _ member := absurd member List.not_mem_nil
  known _ member := absurd member List.not_mem_nil
  extracted _ known := by cases known
  claimed _ _ := by
    rintro ⟨_, here, -⟩
    cases here

/-- When bootstrap is over, each component that is known has had its first pass, or the registration that has made it
known has not come to the end of its pass. Such a registration has taken at least the delay, if its component was
known when the timer was armed, the delay before. -/
theorem extracted_of_finished {store : Store} {ticks : List Tick}
    (ran : (ofStore store delay).ticks ticks = some session)
    {moment : Moment} (member : moment ∈ (ofStore store delay).history ticks) (finishes : moment.Finishes) :
    ∃ arming index, [arming, moment].Sublist ((ofStore store delay).history ticks) ∧ arming.Arms index ∧
      moment.time = arming.time + delay ∧
      ∀ component, moment.before.isKnown component = true →
        moment.before.hasCompiled component = true ∨
          ∃ call, moment.before.IsExtracting call component ∧
            ∃ claiming, [claiming, moment].Sublist ((ofStore store delay).history ticks) ∧ claiming.Claims call ∧
              (arming.before.isKnown component = true → claiming.time + delay ≤ moment.time) := by
  obtain ⟨ticked, earlier, later, split, onTime, accounted⟩ :=
    (ticks_invariant (fun past session => OnTime delay past session ∧ Accounted past session)
      (fun past session tick after ⟨onTime, accounted⟩ ticked =>
        ⟨onTime.tick ticked, accounted.tick onTime.times ticked⟩)
      ran [] ⟨onTime_ofStore store delay, accounted_ofStore store delay⟩).2 moment member
  rw [List.nil_append] at onTime accounted
  have inOrder {other : Moment} (isEarlier : other ∈ earlier) :
      [other, moment].Sublist ((ofStore store delay).history ticks) := by
    rw [split]
    exact (List.singleton_sublist.mpr isEarlier).append (List.cons_sublist_cons.mpr (List.nil_sublist later))
  obtain ⟨arming, index, concludes⟩ := (onTime.tick ticked).concluded moment (by simp) finishes
  have armedBefore : arming ∈ earlier := concludes.mem_of_last
  refine ⟨arming, index, inOrder armedBefore, concludes.arms, concludes.onTime, fun component known => ?_⟩
  refine (accounted.extracted component known).imp_right fun ⟨call, extracting⟩ => ?_
  obtain ⟨claiming, isEarlier, claims, first⟩ := accounted.claimed call component extracting
  refine ⟨call, extracting, claiming, inOrder isEarlier, claims, fun wasKnown => ?_⟩
  have noLater := first arming armedBefore wasKnown
  have isDue := concludes.onTime
  omega

/-- Two registrations begin together, and the pass of the second one takes longer than the delay. -/
def outlasted : List Tick :=
  .turn (.event (.register sitePath)) :: .turn (.event (.register partPath)) :: goOnTicks 1 4 none
    ++ goOnTicks 0 10 (oneQuery sitePath "first") ++ [.wait 100, .expire]

theorem unextracted_part : ∃ session ∈ (ofStore {} 100).ticks outlasted,
    ∃ moment ∈ (ofStore {} 100).history outlasted, moment.Finishes ∧
      moment.before.isKnown partPath = true ∧ moment.before.hasCompiled partPath = false := by
  decide +kernel

theorem extracted_of_outlasted : ∃ session, (ofStore {} 100).ticks outlasted = some session ∧
    ∃ moment ∈ (ofStore {} 100).history outlasted, moment.Finishes ∧
      ∃ arming index, [arming, moment].Sublist ((ofStore {} 100).history outlasted) ∧ arming.Arms index ∧
        moment.time = arming.time + 100 ∧ moment.before.hasCompiled sitePath = true ∧
        ∃ call, moment.before.IsExtracting call partPath := by
  have atEnd : ∃ session ∈ (ofStore {} 100).ticks outlasted, ∃ moment ∈ (ofStore {} 100).history outlasted,
      moment.Finishes ∧ moment.before.hasCompiled sitePath = true ∧
        moment.before.isKnown partPath = true ∧ moment.before.hasCompiled partPath = false := by decide +kernel
  obtain ⟨session, ran, moment, member, finishes, siteCompiled, known, notCompiled⟩ := atEnd
  obtain ⟨arming, index, inOrder, arms, isDue, extracted⟩ := extracted_of_finished ran member finishes
  have extracting : ∃ call, moment.before.IsExtracting call partPath := by
    rcases extracted partPath known with compiled | ⟨call, extracting, -⟩
    · exact absurd (notCompiled.symm.trans compiled) Bool.false_ne_true
    · exact ⟨call, extracting⟩
  exact ⟨session, ran, moment, member, finishes, arming, index, inOrder, arms, isDue, siteCompiled, extracting⟩

end Session

end SiteQuery.Watch
