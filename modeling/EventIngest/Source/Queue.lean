import EventIngest.Source
/-!
# A queue in memory

Messages wait in a queue. One that is given back goes to its end with its count raised. A fetch that
finds nothing waits and looks once more.
-/
namespace EventIngest

/-- What a waiting fetch remembers: how many deliveries it may return, and those it has. -/
structure Waiting where
  max : Nat
  collected : List Delivery := []

structure Queue where
  payloads : Array (List UInt8) := #[]
  queued : List (Int × Nat) := []
  acked : Array Int := #[]
  returned : Array Int := #[]
  deadLettered : Array Int := #[]
  commits : Nat := 0
  failingFetches : Nat := 0
  refusesDeadLetters : Bool := false

namespace Queue

/-- Adds a message at the end; its offset is the number of messages before it. -/
def publish (q : Queue) (payload : List UInt8) : Queue :=
  { q with
    payloads := q.payloads.push payload
    queued := q.queued ++ [((q.payloads.size : Int), 1)] }

def payload? (q : Queue) (id : Int) : Option (List UInt8) :=
  if id < 0 then none else q.payloads[id.toNat]?

def delivery (q : Queue) (m : Int × Nat) : Delivery := .ofMessage ⟨0, m.1, m.2⟩ (q.payload? m.1)

/-- Takes at most `max` messages from the front, unless the fetch is to fail. -/
def take (q : Queue) (max : Nat) : Except SourceError (List Delivery) × Queue :=
  match q.failingFetches with
  | n + 1 => (.error .closed, { q with failingFetches := n })
  | 0 => (.ok ((q.queued.take max).map q.delivery), { q with queued := q.queued.drop max })

def source : Source Queue Waiting where
  fetch q max wait :=
    match q.take max with
    | (.ok [], q) => (.waiting wait.waited { max }, q)
    | (result, q) => (.answered result, q)
  resume q call :=
    let (result, q) := q.take call.max
    (.answered result, q)
  ack q h := (.ok (), { q with acked := q.acked.push h.offset })
  nak q h :=
    (.ok (), { q with
      returned := q.returned.push h.offset
      queued := q.queued ++ [(h.offset, h.deliveryCount + 1)] })
  commit q := (.ok (), { q with commits := q.commits + 1 })
  deadLetter q h _ _ :=
    if q.refusesDeadLetters then (.error (.deadLetter "dlq unavailable"), q)
    else (.ok (), { q with deadLettered := q.deadLettered.push h.offset })

end Queue

end EventIngest
