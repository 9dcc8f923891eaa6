/-!
A timer that runs out some time after it was armed last.
-/

namespace SiteQuery.Watch

structure DebounceTimer (Label : Type) where
  delay : Nat
  /-- When the timer runs out, and what for. -/
  pending? : Option (Nat × Label) := none
deriving DecidableEq, Repr

namespace DebounceTimer

variable {Label : Type}

/-- Starts the countdown anew. -/
def arm (timer : DebounceTimer Label) (now : Nat) (label : Label) : DebounceTimer Label :=
  { timer with pending? := some (now + timer.delay, label) }

/-- Stops the countdown, and tells whether one was under way. -/
def cancel (timer : DebounceTimer Label) : Bool × DebounceTimer Label :=
  (timer.pending?.isSome, { timer with pending? := none })

/-- What runs out until a time, and when. -/
def elapse (timer : DebounceTimer Label) (time : Nat) : Option (Nat × Label) × DebounceTimer Label :=
  match timer.pending? with
  | none => (none, timer)
  | some (due, label) =>
    if due ≤ time then (some (due, label), { timer with pending? := none }) else (none, timer)

end DebounceTimer

end SiteQuery.Watch
