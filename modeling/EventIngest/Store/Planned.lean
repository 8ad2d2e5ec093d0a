import EventIngest.Writing
/-!
# A store in memory with planned faults

Each insert takes the next planned outcome, if one is left. An insert that is not planned to fail
fails during an outage, then as often as the store is set to refuse, and otherwise keeps its rows.
-/
namespace EventIngest

/-- The time that an insert takes, and the error it ends in. -/
structure Outcome where
  delay : Duration := 0
  failure : Option StoreError := none
  deriving DecidableEq, Repr

structure PlannedStore where
  plan : List Outcome := []
  outages : List (Instant × Instant) := []
  refusals : Nat := 0
  attempted : Array (List Row) := #[]
  stored : Array (List Row) := #[]

namespace PlannedStore

def isDown (s : PlannedStore) (now : Instant) : Bool :=
  s.outages.any fun (first, last) => decide (first ≤ now ∧ now < last)

/-- An insert that was not planned to fail. -/
def keep (s : PlannedStore) (rows : List Row) : Except StoreError Unit × PlannedStore :=
  let s := { s with attempted := s.attempted.push rows }
  match s.refusals with
  | n + 1 => (.error (.rejected "scripted failure"), { s with refusals := n })
  | 0 => (.ok (), { s with stored := s.stored.push rows })

def store : Store PlannedStore (Option StoreError) where
  insert s _ _ :=
    match s.plan with
    | [] => (0, none, s)
    | outcome :: plan => (outcome.delay.waited, outcome.failure, { s with plan })
  finish s now call rows :=
    match call with
    | some e => (.error e, s)
    | none => if s.isDown now then (.error (.rejected "store down"), s) else s.keep rows

end PlannedStore

end EventIngest
