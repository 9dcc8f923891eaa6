import SiteQuery.Proofs.Watch.Clock

/-!
When bootstrap is over.

The watcher tells it once at most, the delay after the timer was armed by a registration and with no other arming in
between: `Session.finished_once`. `OnTime` is what every step by the clock keeps for it.
-/

namespace SiteQuery.Watch

namespace Moment

variable {moment : Moment}

theorem not_finishes_of_eq (same : moment.after.watcher.finishes = moment.before.watcher.finishes) :
    ¬ moment.Finishes := by
  intro finishes
  rw [Finishes, same] at finishes
  exact Nat.lt_irrefl _ finishes

theorem not_arms_of_tick (other : ∀ index result, moment.tick ≠ .turn (.event (.move index result))) (index : Nat) :
    ¬ moment.Arms index := by
  rintro ⟨result, reaction, isMove, -⟩
  exact other index result isMove

end Moment

namespace Session

/-- The arming that counts: no other one has come later. -/
structure LastArming (past : List Moment) (arming : Moment) (index : Nat) : Prop where
  member : arming ∈ past
  arms : arming.Arms index
  last : ∀ other ∈ past, ∀ call, other.Arms call → other.time ≤ arming.time

/-- Bootstrap was over by the timer, the delay after it was armed, and it was not armed in between. -/
structure Concludes (past : List Moment) (delay : Nat) (moment arming : Moment) (index : Nat) : Prop where
  inOrder : [arming, moment].Sublist past
  arms : arming.Arms index
  onTime : moment.time = arming.time + delay
  apart : ∀ other ∈ past, ∀ call, other.Arms call → other.time ≤ arming.time ∨ moment.time ≤ other.time

/-- What holds of the clock along every run. -/
structure OnTime (delay : Nat) (past : List Moment) (session : Session) : Prop where
  sameDelay : session.watcher.timer.delay = delay
  times : ∀ moment ∈ past, moment.time ≤ session.watcher.now
  once : session.watcher.finishes ≤ 1
  unfinished : session.watcher.isFinished = false → session.watcher.finishes = 0
  pending : ∀ due label, session.watcher.timer.pending? = some (due, label) → session.watcher.now ≤ due ∧
    ∃ arming index, LastArming past arming index ∧ due = arming.time + delay
  concluded : ∀ moment ∈ past, moment.Finishes → ∃ arming index, Concludes past delay moment arming index
  registered : ∀ moment ∈ past, ∀ index, moment.Arms index →
    ∃ reaction, session.reactions[index]? = some reaction ∧ reaction.isRegistered = true

variable {session : Session} {delay : Nat} {past : List Moment} {moment arming : Moment} {index : Nat}

theorem Concludes.append (concludes : Concludes past delay moment arming index) {next : Moment}
    (later : moment.time ≤ next.time) : Concludes (past ++ [next]) delay moment arming index where
  inOrder := concludes.inOrder.trans (List.sublist_append_left past [next])
  arms := concludes.arms
  onTime := concludes.onTime
  apart other member call arms := by
    rcases List.mem_append.mp member with old | new
    · exact concludes.apart other old call arms
    · obtain rfl := List.mem_singleton.mp new
      exact .inr later

theorem Concludes.mem_of_last (concludes : Concludes (past ++ [moment]) delay moment arming index) : arming ∈ past := by
  obtain ⟨first, last, split, inPast, isLast⟩ := List.sublist_append_iff.mp concludes.inOrder
  cases first with
  | nil =>
    have short := isLast.length_le
    rw [← List.nil_append last, ← split] at short
    exact absurd short (by simp)
  | cons other rest =>
    obtain ⟨rfl, -⟩ := List.cons.inj split
    exact inPast.subset List.mem_cons_self

theorem LastArming.append (last : LastArming past arming index) {next : Moment}
    (notArms : ∀ call, ¬ next.Arms call) : LastArming (past ++ [next]) arming index where
  member := List.mem_append_left _ last.member
  arms := last.arms
  last other member call arms := by
    rcases List.mem_append.mp member with old | new
    · exact last.last other old call arms
    · obtain rfl := List.mem_singleton.mp new
      exact absurd arms (notArms call)

namespace OnTime

/-- What has happened stays as it was, and what happens next comes no earlier. -/
theorem concluded_append (onTime : OnTime delay past session) {next : Moment} (now : next.time = session.watcher.now)
    (notFinishes : ¬ next.Finishes) :
    ∀ moment ∈ past ++ [next], moment.Finishes →
      ∃ arming index, Concludes (past ++ [next]) delay moment arming index := by
  intro moment member finishes
  rcases List.mem_append.mp member with old | new
  · obtain ⟨arming, index, concludes⟩ := onTime.concluded moment old finishes
    exact ⟨arming, index, concludes.append (now ▸ onTime.times moment old)⟩
  · obtain rfl := List.mem_singleton.mp new
    exact absurd finishes notFinishes

theorem times_append (onTime : OnTime delay past session) {next : Moment} (now : next.time = session.watcher.now)
    {time : Nat} (later : session.watcher.now ≤ time) : ∀ moment ∈ past ++ [next], moment.time ≤ time := by
  intro moment member
  rcases List.mem_append.mp member with old | new
  · exact Nat.le_trans (onTime.times moment old) later
  · obtain rfl := List.mem_singleton.mp new
    exact now ▸ later

theorem registered_append (onTime : OnTime delay past session) {next : Moment} {after : Session}
    (stay : ∀ (index : Nat) (reaction : Reaction), session.reactions[index]? = some reaction →
      reaction.isRegistered = true →
      ∃ other, after.reactions[index]? = some other ∧ other.isRegistered = true)
    (here : ∀ index : Nat, next.Arms index →
      ∃ other, after.reactions[index]? = some other ∧ other.isRegistered = true) :
    ∀ moment ∈ past ++ [next], ∀ index, moment.Arms index →
      ∃ reaction, after.reactions[index]? = some reaction ∧ reaction.isRegistered = true := by
  intro moment member index arms
  rcases List.mem_append.mp member with old | new
  · obtain ⟨reaction, inReactions, registered⟩ := onTime.registered moment old index arms
    exact stay index reaction inReactions registered
  · obtain rfl := List.mem_singleton.mp new
    exact here index arms

/-- Where the clock and the timer are left alone, only calls go on. -/
theorem stand (onTime : OnTime delay past session) {tick : Tick} {after : Session}
    (sameClock : session.watcher.SameClock after.watcher)
    (notArms : ∀ index, ¬ (⟨session, tick, after⟩ : Moment).Arms index)
    (stay : ∀ (index : Nat) (reaction : Reaction), session.reactions[index]? = some reaction →
      reaction.isRegistered = true →
      ∃ other, after.reactions[index]? = some other ∧ other.isRegistered = true) :
    OnTime delay (past ++ [⟨session, tick, after⟩]) after where
  sameDelay := by rw [sameClock.timer, onTime.sameDelay]
  times := onTime.times_append rfl (Nat.le_of_eq sameClock.now.symm)
  once := sameClock.finishes ▸ onTime.once
  unfinished isFinished := by
    rw [sameClock.isFinished] at isFinished
    rw [sameClock.finishes, onTime.unfinished isFinished]
  pending due label pending := by
    rw [sameClock.timer] at pending
    rw [sameClock.now]
    obtain ⟨notYet, arming, index, last, isDue⟩ := onTime.pending due label pending
    exact ⟨notYet, arming, index, last.append notArms, isDue⟩
  concluded := onTime.concluded_append rfl (Moment.not_finishes_of_eq sameClock.finishes)
  registered := onTime.registered_append stay fun index arms => absurd arms (notArms index)

theorem arm (onTime : OnTime delay past session) {index : Nat} {result : PassResult} {reaction next : Reaction}
    (here : session.reactions[index]? = some reaction) (isArming : reaction.isArming = true)
    (step : reaction.step result session.watcher = some (session.watcher.armTimer, next)) {passes : List Pass} :
    OnTime delay
      (past ++ [⟨session, .turn (.event (.move index result)),
        ⟨session.watcher.armTimer, session.reactions.set index next, passes⟩⟩])
      ⟨session.watcher.armTimer, session.reactions.set index next, passes⟩ where
  sameDelay := onTime.sameDelay
  times := onTime.times_append rfl (Nat.le_refl _)
  once := onTime.once
  unfinished := onTime.unfinished
  pending due label pending := by
    simp only [Watcher.armTimer, DebounceTimer.arm, Option.some.injEq, Prod.mk.injEq] at pending
    obtain ⟨rfl, -⟩ := pending
    refine ⟨Nat.le_add_right _ _, _, index, ⟨List.mem_append_right past (List.mem_singleton_self _),
      ⟨result, reaction, rfl, here, isArming⟩, fun other member call arms => ?_⟩, by rw [onTime.sameDelay]; rfl⟩
    exact onTime.times_append (by rfl) (Nat.le_refl _) other member
  concluded := onTime.concluded_append rfl (Moment.not_finishes_of_eq rfl)
  registered := by
    obtain ⟨bound, -⟩ := List.getElem?_eq_some_iff.mp here
    have armed : ∃ other, (session.reactions.set index next)[index]? = some other ∧ other.isRegistered = true :=
      ⟨next, by simp [bound], (Reaction.step_of_isArming step isArming).2⟩
    refine onTime.registered_append (fun other old inReactions isRegistered => ?_) ?_
    · by_cases same : index = other
      · exact same ▸ armed
      · exact ⟨old, by rwa [List.getElem?_set_ne same], isRegistered⟩
    · rintro other ⟨_, _, isMove, -⟩
      cases isMove
      exact armed

theorem wait (onTime : OnTime delay past session) {time : Nat} (later : session.watcher.now ≤ time)
    (before : ∀ due label, session.watcher.timer.pending? = some (due, label) → time ≤ due) :
    OnTime delay (past ++ [⟨session, .wait time, session.wait time⟩]) (session.wait time) where
  sameDelay := onTime.sameDelay
  times := onTime.times_append rfl later
  once := onTime.once
  unfinished := onTime.unfinished
  pending due label pending := by
    obtain ⟨-, arming, index, last, isDue⟩ := onTime.pending due label pending
    exact ⟨before due label pending, arming, index, last.append (Moment.not_arms_of_tick nofun), isDue⟩
  concluded := onTime.concluded_append rfl (Moment.not_finishes_of_eq rfl)
  registered := by
    refine onTime.registered_append (fun _ reaction here registered => ⟨reaction, here, registered⟩) ?_
    rintro index ⟨_, _, isMove, -⟩
    cases isMove

/-- The timer runs out at the very moment when it is due, and the arming that counts is the delay before it. -/
theorem expire (onTime : OnTime delay past session) {due : Nat}
    (pending : session.watcher.timer.pending? = some (due, ())) (isDue : due ≤ session.watcher.now) :
    OnTime delay
      (past ++ [⟨session, .expire, session.expire { session.watcher.timer with pending? := none }⟩])
      (session.expire { session.watcher.timer with pending? := none }) := by
  obtain ⟨notYet, arming, index, last, armed⟩ := onTime.pending due () pending
  have notArms (call : Nat) :
      ¬ (⟨session, .expire, session.expire { session.watcher.timer with pending? := none }⟩ : Moment).Arms call :=
    Moment.not_arms_of_tick (fun _ _ same => by cases same) call
  refine ⟨?_, ?_, ?_, ?_, ?_, ?_, ?_⟩
  · rw [timer_expire, onTime.sameDelay]
  · rw [now_expire]
    exact onTime.times_append rfl (Nat.le_refl _)
  · rw [finishes_expire]
    by_cases wasFinished : session.watcher.isFinished = true
    · rw [if_pos wasFinished]
      exact onTime.once
    · have noneYet := onTime.unfinished (by simpa using wasFinished)
      rw [if_neg wasFinished]
      omega
  · intro unfinished
    rw [isFinished_expire] at unfinished
    cases unfinished
  · intro due label isPending
    rw [timer_expire] at isPending
    cases isPending
  · intro moment member finishes
    rcases List.mem_append.mp member with old | new
    · obtain ⟨arming, index, concludes⟩ := onTime.concluded moment old finishes
      exact ⟨arming, index, concludes.append (onTime.times moment old)⟩
    · obtain rfl := List.mem_singleton.mp new
      refine ⟨arming, index, ?_, last.arms, ?_, fun other member call arms => .inl ?_⟩
      · exact (List.singleton_sublist.mpr last.member).append (List.Sublist.refl _)
      · exact (Nat.le_antisymm notYet isDue).trans armed
      · exact (last.append notArms).last other member call arms
  · exact onTime.registered_append (fun _ reaction here registered => ⟨reaction, here, registered⟩)
      fun index arms => absurd arms (notArms index)

theorem tick (onTime : OnTime delay past session) {tick : Tick} {after : Session}
    (ticked : session.tick tick = some after) :
    OnTime delay (past ++ [⟨session, tick, after⟩]) after := by
  cases goes_tick ticked with
  | arm here isArming step => exact onTime.arm here isArming step
  | wait later before => exact onTime.wait later before
  | expire pending isDue => exact onTime.expire pending isDue
  | stand stays sameClock _ reactions =>
    refine onTime.stand sameClock (Moment.not_arms_of_tick fun index result same => ?_) ?_
    · exact stays index result (Tick.turn.inj same)
    · intro index reaction here registered
      obtain ⟨bound, -⟩ := List.getElem?_eq_some_iff.mp here
      exact ⟨reaction, by rw [reactions, List.getElem?_append_left bound, here], registered⟩
  | @go index result reaction next watcher here notArming sameClock step =>
    refine onTime.stand sameClock ?_ ?_
    · rintro other ⟨_, arming, isMove, isHere, isArming⟩
      cases isMove
      cases here.symm.trans isHere
      exact Bool.false_ne_true (notArming.symm.trans isArming)
    · intro other old inReactions registered
      by_cases same : index = other
      · subst same
        cases here.symm.trans inReactions
        obtain ⟨bound, -⟩ := List.getElem?_eq_some_iff.mp here
        exact ⟨next, by simp [bound], Reaction.isRegistered_step step registered⟩
      · exact ⟨old, by rwa [List.getElem?_set_ne same], registered⟩

end OnTime

theorem finishes_ofStore (store : Store) (delay : Nat) : (ofStore store delay).watcher.finishes = 0 := rfl

theorem onTime_ofStore (store : Store) (delay : Nat) : OnTime delay [] (ofStore store delay) where
  sameDelay := rfl
  times _ member := absurd member List.not_mem_nil
  once := by rw [finishes_ofStore]; exact Nat.zero_le 1
  unfinished _ := finishes_ofStore store delay
  pending _ _ pending := by cases pending
  concluded _ member := absurd member List.not_mem_nil
  registered _ member := absurd member List.not_mem_nil

/-- Where bootstrap is over, nothing tells it again. -/
theorem finishes_tick {tick : Tick} {after : Session} (ticked : session.tick tick = some after)
    (isFinished : session.watcher.isFinished = true) :
    after.watcher.isFinished = true ∧ after.watcher.finishes = session.watcher.finishes := by
  cases goes_tick ticked with
  | arm => exact ⟨isFinished, rfl⟩
  | wait => exact ⟨isFinished, rfl⟩
  | expire => exact ⟨isFinished_expire _ _, by rw [finishes_expire, if_pos isFinished]; rfl⟩
  | stand _ sameClock => exact ⟨sameClock.isFinished.trans isFinished, sameClock.finishes⟩
  | go _ _ sameClock => exact ⟨sameClock.isFinished.trans isFinished, sameClock.finishes⟩

/-- Bootstrap is over once at most, and not at all where it was over before. When it is, a registration that gives
true has armed the timer exactly the delay before, and no registration has armed it in between. -/
theorem finished_once {store : Store} {delay : Nat} {ticks : List Tick}
    (ran : (ofStore store delay).ticks ticks = some session) :
    session.watcher.finishes ≤ 1 ∧
      (∀ moment ∈ (ofStore store delay).history ticks, moment.Finishes →
        ∃ arming index, [arming, moment].Sublist ((ofStore store delay).history ticks) ∧ arming.Arms index ∧
          moment.time = arming.time + delay ∧
          (∃ reaction, session.reactions[index]? = some reaction ∧ reaction.isRegistered = true) ∧
          ∀ other ∈ (ofStore store delay).history ticks, ∀ call, other.Arms call →
            ¬ (arming.time < other.time ∧ other.time < moment.time)) ∧
      (store.state.stage = .finished → session.watcher.finishes = 0) := by
  have onTime : OnTime delay ([] ++ (ofStore store delay).history ticks) session :=
    (ticks_invariant (OnTime delay) (fun _ _ _ _ held ticked => held.tick ticked) ran [] (onTime_ofStore store delay)).1
  rw [List.nil_append] at onTime
  refine ⟨onTime.once, fun moment member finishes => ?_, fun isFinished => ?_⟩
  · obtain ⟨arming, index, inOrder, arms, isDue, apart⟩ := onTime.concluded moment member finishes
    have registered := onTime.registered arming (inOrder.subset List.mem_cons_self) index arms
    refine ⟨arming, index, inOrder, arms, isDue, registered, fun other inHistory call also between => ?_⟩
    have notBetween := apart other inHistory call also
    omega
  · have initially : (ofStore store delay).watcher.isFinished = true ∧ (ofStore store delay).watcher.finishes = 0 :=
      ⟨by simp [ofStore, Watcher.ofStore, isFinished], finishes_ofStore store delay⟩
    have untold := ticks_invariant
      (fun _ session => session.watcher.isFinished = true ∧ session.watcher.finishes = 0) ?_ ran [] initially
    · exact untold.1.2
    · rintro past session tick after ⟨isFinished, untold⟩ ticked
      obtain ⟨stays, same⟩ := finishes_tick ticked isFinished
      exact ⟨stays, same.trans untold⟩

def partPath : Path := ⟨"/p/b.js"⟩

/-- A call goes on for a number of steps. -/
def goOnTicks (index count : Nat) (result : PassResult) : List Tick := (goOn index count result).map .turn

/-- Registrations whose passes end after 0, 30 and 40, one of them in vain, and a last one when all is over. -/
def staggered : List Tick :=
  .turn (.event (.register sitePath)) :: goOnTicks 0 10 (oneQuery sitePath "first")
    ++ .turn (.event (.register partPath)) :: goOnTicks 1 4 none ++ .wait 30 :: goOnTicks 1 4 none
    ++ .turn (.event (.register ⟨"/p/c.js"⟩)) :: goOnTicks 2 4 none ++ .wait 40 :: goOnTicks 2 4 none
    ++ [.wait 140, .expire] ++ .turn (.event (.register ⟨"/p/d.js"⟩)) :: goOnTicks 3 7 none

theorem finished_of_staggered : ∃ session, (ofStore {} 100).ticks staggered = some session ∧
    session.watcher.finishes ≤ 1 ∧
    ∃ moment ∈ (ofStore {} 100).history staggered, moment.Finishes ∧ moment.time = 140 ∧
      ∃ arming index, [arming, moment].Sublist ((ofStore {} 100).history staggered) ∧ arming.Arms index ∧
        140 = arming.time + 100 := by
  have atEnd : ∃ session ∈ (ofStore {} 100).ticks staggered,
      ∃ moment ∈ (ofStore {} 100).history staggered, moment.Finishes ∧ moment.time = 140 := by decide +kernel
  obtain ⟨session, ran, moment, member, finishes, time⟩ := atEnd
  obtain ⟨once, concluded, -⟩ := finished_once ran
  obtain ⟨arming, index, inOrder, arms, onTime, -⟩ := concluded moment member finishes
  exact ⟨session, ran, once, moment, member, finishes, time, arming, index, inOrder, arms, time ▸ onTime⟩

end Session

end SiteQuery.Watch
