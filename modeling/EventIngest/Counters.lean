/-!
# Counters

Totals since the start, counted modulo `2 ^ 64`.
-/
namespace EventIngest

structure Counters where
  processed : UInt64 := 0
  inserted : UInt64 := 0
  batches : UInt64 := 0
  errors : UInt64 := 0
  deriving DecidableEq, Repr

namespace Counters

def addProcessed (c : Counters) (n : Nat) : Counters :=
  { c with processed := c.processed + UInt64.ofNat n }

/-- A batch of `n` events was stored. -/
def addInserted (c : Counters) (n : Nat) : Counters :=
  { c with inserted := c.inserted + UInt64.ofNat n, batches := c.batches + 1 }

def addErrors (c : Counters) (n : Nat) : Counters :=
  { c with errors := c.errors + UInt64.ofNat n }

inductive Increment where
  | processed (n : Nat)
  | inserted (n : Nat)
  | errors (n : Nat)
  deriving DecidableEq, Repr

def add (c : Counters) : Increment → Counters
  | .processed n => c.addProcessed n
  | .inserted n => c.addInserted n
  | .errors n => c.addErrors n

end Counters

end EventIngest
