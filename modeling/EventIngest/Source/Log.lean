import EventIngest.Ledger
import EventIngest.Source.Queue
/-!
# A log of one partition

Records are read in order from a position that only moves forward; settlement goes through a ledger,
and messages that were given back are handed out before new records. A restart forgets all that is
not committed.
-/
namespace EventIngest

structure Log where
  records : Array (List UInt8) := #[]
  position : Nat := 0
  committed : Nat := 0
  reads : Nat := 0
  ledger : Ledger := {}
  deadLettered : Array Int := #[]

namespace Log

def append (l : Log) (record : List UInt8) : Log := { l with records := l.records.push record }

/-- Continues from the committed offset, as another consumer would. -/
def restart (l : Log) : Log := { l with position := l.committed, ledger := {} }

def read : Nat → Log → List Delivery × Log
  | 0, l => ([], l)
  | max + 1, l =>
    match l.records[l.position]? with
    | none => ([], l)
    | some record =>
      let (count, ledger) := l.ledger.deliver 0 l.position (some record)
      let delivery := Delivery.ofMessage ⟨0, l.position, count⟩ (some record)
      let (rest, l) :=
        read max { l with position := l.position + 1, reads := l.reads + 1, ledger }
      (delivery :: rest, l)

def source : Source Log Waiting where
  fetch l max wait :=
    let (again, ledger) := l.ledger.redeliver max
    let (fresh, l) := read (max - again.length) { l with ledger }
    let deliveries := again ++ fresh
    if deliveries.length < max then (.waiting wait.waited ⟨max, deliveries⟩, l)
    else (.answered (.ok deliveries), l)
  resume l call :=
    let (fresh, l) := read (call.max - call.collected.length) l
    (.answered (.ok (call.collected ++ fresh)), l)
  ack l h := (.ok (), { l with ledger := (l.ledger.ack h.partition h.offset).2 })
  nak l h := (.ok (), { l with ledger := (l.ledger.nak h.partition h.offset).2 })
  commit l :=
    let (moved, ledger) := l.ledger.commit
    (.ok (), { l with
      ledger
      committed := moved.foldl (fun _ m => m.2.toNat) l.committed })
  deadLetter l h _ _ := (.ok (), { l with deadLettered := l.deadLettered.push h.offset })

end Log

end EventIngest
