import EventIngest.Duration
/-!
# Activities in time

An activity makes moves that take no time until it has none left, and then waits for an instant. A
run keeps the clock, the state and a journal of the events with their times.
-/
namespace EventIngest

structure Activity (State Event : Type) where
  /-- The next move at an instant, if there is one, with the events of it. -/
  move? : Instant → State → Option (State × List Event)
  /-- The next instant at which there may be a move. -/
  due? : State → Option Instant

structure Run (State Event : Type) where
  now : Instant := 0
  state : State
  journal : Array (Instant × Event) := #[]

namespace Run

variable {State Event : Type}

def record (r : Run State Event) (state : State) (events : List Event) : Run State Event :=
  { r with state, journal := r.journal ++ events.map (r.now, ·) }

/-- A change from outside the activity. -/
def alter (r : Run State Event) (f : State → State) : Run State Event :=
  { r with state := f r.state }

/-- Goes on until the activity waits for nothing, or for an instant not before the limit if there is
one, and for at most so many moves and waits. -/
def advance (activity : Activity State Event) (limit : Option Instant) :
    Nat → Run State Event → Run State Event
  | 0, r => r
  | fuel + 1, r =>
    match activity.move? r.now r.state with
    | some (state, events) => advance activity limit fuel (r.record state events)
    | none =>
      match limit, activity.due? r.state with
      | none, none => r
      | none, some due => advance activity limit fuel { r with now := max r.now due }
      | some last, none => { r with now := max r.now last }
      | some last, some due =>
        if due < last then advance activity limit fuel { r with now := max r.now due }
        else { r with now := max r.now last }

end Run

end EventIngest
