import EventIngest.Message
/-!
# The ledger of offsets

A log keeps one committed offset per partition, so the settlement of single messages is folded into
a frontier: the lowest offset that was handed out and not acknowledged, or else the offset after the
highest one handed out. A message that is given back holds the frontier and is queued to be handed
out again; its neighbours are not read again. Payloads are kept until their offset is acknowledged.
-/
namespace EventIngest

namespace Ledger

/-- A message that was handed out and is not acknowledged. -/
structure Entry where
  partition : Int
  offset : Int
  payload : Option (List UInt8)
  deliveries : Nat
  queued : Bool
  deriving DecidableEq, Repr

/-- What is known of an owned partition: the offset after the highest one handed out, and the
offset last committed. -/
structure Progress where
  partition : Int
  next : Option Int := none
  committed : Option Int := none
  deriving DecidableEq, Repr

namespace Entry

def isAt (e : Entry) (partition offset : Int) : Bool :=
  e.partition == partition && e.offset == offset

def isAfter (e : Entry) (partition offset : Int) : Bool :=
  decide (partition < e.partition ∨ (partition = e.partition ∧ offset < e.offset))

def handOut (e : Entry) : Entry := { e with deliveries := e.deliveries + 1, queued := false }

def delivery (e : Entry) : Delivery :=
  .ofMessage ⟨e.partition, e.offset, e.deliveries⟩ e.payload

end Entry

/-- Counts a hand-out at its place, where a first one begins an entry. -/
def enter (partition offset : Int) (payload : Option (List UInt8)) : List Entry → List Entry
  | [] => [⟨partition, offset, payload, 1, false⟩]
  | e :: es =>
    if e.isAt partition offset then e.handOut :: es
    else if e.isAfter partition offset then ⟨partition, offset, payload, 1, false⟩ :: e :: es
    else e :: enter partition offset payload es

def alter (partition : Int) (f : Progress → Progress) : List Progress → List Progress
  | [] => [f { partition }]
  | p :: ps =>
    if p.partition = partition then f p :: ps
    else if partition < p.partition then f { partition } :: p :: ps
    else p :: alter partition f ps

def Progress.reach (offset : Int) (p : Progress) : Progress :=
  { p with next := some ((p.next.map (max · (offset + 1))).getD (offset + 1)) }

def handOutQueued : Nat → List Entry → List Delivery × List Entry
  | _, [] => ([], [])
  | 0, es => ([], es)
  | n + 1, e :: es =>
    if e.queued then
      let (deliveries, rest) := handOutQueued n es
      (e.handOut.delivery :: deliveries, e.handOut :: rest)
    else
      let (deliveries, rest) := handOutQueued (n + 1) es
      (deliveries, e :: rest)

end Ledger

/-- The entries and the owned partitions, each in increasing order. -/
structure Ledger where
  pending : List Ledger.Entry := []
  owned : List Ledger.Progress := []
  deriving DecidableEq, Repr

namespace Ledger

def find? (l : Ledger) (partition offset : Int) : Option Entry :=
  l.pending.find? (·.isAt partition offset)

def isPending (l : Ledger) (partition offset : Int) : Bool := (l.find? partition offset).isSome

def lowestPending (l : Ledger) (partition : Int) : Option Int :=
  (l.pending.find? (·.partition == partition)).map (·.offset)

/-- Where a partition may be committed up to. -/
def frontier (l : Ledger) (p : Progress) : Option Int :=
  (l.lowestPending p.partition).or p.next

def assign (l : Ledger) (partition : Int) : Ledger :=
  { l with owned := alter partition id l.owned }

/-- Forgets a partition, and tells what is still to be committed for it. -/
def revoke (l : Ledger) (partition : Int) : Option Int × Ledger :=
  let due := (l.owned.find? (·.partition == partition)).bind fun p =>
    (l.frontier p).filter fun f => some f != p.committed
  (due, {
    pending := l.pending.filter (·.partition != partition)
    owned := l.owned.filter (·.partition != partition) })

/-- Records that a message was read, and tells how often it has been handed out. A message that is
still pending keeps its payload. -/
def deliver (l : Ledger) (partition offset : Int) (payload : Option (List UInt8)) : Nat × Ledger :=
  let l : Ledger := {
    pending := enter partition offset payload l.pending
    owned := alter partition (.reach offset) l.owned }
  (((l.find? partition offset).map (·.deliveries)).getD 0, l)

def ack (l : Ledger) (partition offset : Int) : Bool × Ledger :=
  (l.isPending partition offset,
    { l with pending := l.pending.filter fun e => !e.isAt partition offset })

def nak (l : Ledger) (partition offset : Int) : Bool × Ledger :=
  (l.isPending partition offset,
    { l with pending := l.pending.map fun e =>
        if e.isAt partition offset then { e with queued := true } else e })

/-- Hands out at most `max` queued messages again, the lowest partition and offset first. -/
def redeliver (l : Ledger) (max : Nat) : List Delivery × Ledger :=
  let (deliveries, pending) := handOutQueued max l.pending
  (deliveries, { l with pending })

def moved? (l : Ledger) (p : Progress) : Option Int :=
  (l.frontier p).filter fun f => (p.committed.map (decide <| · < f)).getD true

def commit (l : Ledger) : List (Int × Int) × Ledger :=
  (l.owned.filterMap fun p => (l.moved? p).map fun f => (p.partition, f),
    { l with owned := l.owned.map fun p =>
        match l.moved? p with
        | some f => { p with committed := some f }
        | none => p })

end Ledger

end EventIngest
