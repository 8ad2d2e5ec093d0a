import EventIngest.Source.Log
/-!
# Planned faults

A source in front of another that makes chosen calls fail before they reach it.
-/
namespace EventIngest

/-- Which calls fail: acknowledgements and returns of some offsets, the next commits, one fetch by a
crash (none for zero), and every other fetch after the most allowed, which asks for an end of the
work. -/
structure Faults where
  failingAcks : List Int := []
  failingNaks : List Int := []
  failingCommits : Nat := 0
  crashingFetch : Nat := 0
  mostFetches : Nat := 200
  fetches : Nat := 0
  deriving DecidableEq, Repr

/-- A source behind planned faults. -/
def Source.faulty {State Call : Type} (source : Source State Call) :
    Source (Faults × State) Call where
  fetch := fun (faults, s) max wait =>
    let faults := { faults with fetches := faults.fetches + 1 }
    if faults.fetches = faults.crashingFetch then (.crashed, faults, s)
    else if faults.fetches > faults.mostFetches then (.stalled, faults, s)
    else
      let (r, s) := source.fetch s max wait
      (r, faults, s)
  resume := fun (faults, s) call =>
    let (r, s) := source.resume s call
    (r, faults, s)
  ack := fun (faults, s) h =>
    if faults.failingAcks.contains h.offset then (.error .closed, faults, s)
    else
      let (r, s) := source.ack s h
      (r, faults, s)
  nak := fun (faults, s) h =>
    if faults.failingNaks.contains h.offset then (.error .closed, faults, s)
    else
      let (r, s) := source.nak s h
      (r, faults, s)
  commit := fun (faults, s) =>
    match faults.failingCommits with
    | n + 1 => (.error .closed, { faults with failingCommits := n }, s)
    | 0 =>
      let (r, s) := source.commit s
      (r, faults, s)
  deadLetter := fun (faults, s) h raw reason =>
    let (r, s) := source.deadLetter s h raw reason
    (r, faults, s)

def Source.either {Left Right Call : Type} (left : Source Left Call) (right : Source Right Call) :
    Source (Left ⊕ Right) Call where
  fetch
    | .inl s, max, wait => (left.fetch s max wait).map id .inl
    | .inr s, max, wait => (right.fetch s max wait).map id .inr
  resume
    | .inl s, call => (left.resume s call).map id .inl
    | .inr s, call => (right.resume s call).map id .inr
  ack
    | .inl s, h => (left.ack s h).map id .inl
    | .inr s, h => (right.ack s h).map id .inr
  nak
    | .inl s, h => (left.nak s h).map id .inl
    | .inr s, h => (right.nak s h).map id .inr
  commit
    | .inl s => (left.commit s).map id .inl
    | .inr s => (right.commit s).map id .inr
  deadLetter
    | .inl s, h, raw, reason => (left.deadLetter s h raw reason).map id .inl
    | .inr s, h, raw, reason => (right.deadLetter s h raw reason).map id .inr

abbrev Broker := Queue ⊕ Log

def Broker.source : Source Broker Waiting := .either Queue.source Log.source

end EventIngest
