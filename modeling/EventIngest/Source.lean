import EventIngest.Failure
import EventIngest.Message
/-!
# Sources

Where deliveries come from and are settled. A fetch may answer at once or wait; what it remembers
while it waits is a call, with which it is resumed. The other calls take no time.
-/
namespace EventIngest

/-- How a fetch stands: it has answered, it is to be resumed after some time, it will never answer
and asks for an end of the work, or it has crashed. -/
inductive Fetch (Call : Type) where
  | answered (result : Except SourceError (List Delivery))
  | waiting (time : Duration) (call : Call)
  | stalled
  | crashed

structure Source (State Call : Type) where
  /-- Asks for at most `max` deliveries, for which the source may wait. -/
  fetch : State → (max : Nat) → (wait : Duration) → Fetch Call × State
  resume : State → Call → Fetch Call × State
  ack : State → Handle → Except SourceError Unit × State
  nak : State → Handle → Except SourceError Unit × State
  commit : State → Except SourceError Unit × State
  /-- Puts a message aside, with its bytes and the reason. -/
  deadLetter : State → Handle → List UInt8 → String → Except SourceError Unit × State

/-- A part of a state that can be read and replaced. -/
structure Part (Whole Piece : Type) where
  get : Whole → Piece
  set : Piece → Whole → Whole

namespace Source

def within {Whole Piece Call : Type} (source : Source Piece Call) (part : Part Whole Piece) :
    Source Whole Call where
  fetch w max wait :=
    let (r, p) := source.fetch (part.get w) max wait
    (r, part.set p w)
  resume w call :=
    let (r, p) := source.resume (part.get w) call
    (r, part.set p w)
  ack w h :=
    let (r, p) := source.ack (part.get w) h
    (r, part.set p w)
  nak w h :=
    let (r, p) := source.nak (part.get w) h
    (r, part.set p w)
  commit w :=
    let (r, p) := source.commit (part.get w)
    (r, part.set p w)
  deadLetter w h raw reason :=
    let (r, p) := source.deadLetter (part.get w) h raw reason
    (r, part.set p w)

end Source

end EventIngest
