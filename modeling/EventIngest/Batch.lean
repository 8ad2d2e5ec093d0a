import EventIngest.Duration
import EventIngest.Message
/-!
# Batches

Events are collected in a buffer until it is full or its deadline has come.
-/
namespace EventIngest

/-- An event and the handle of the message that brought it. -/
structure Parcel where
  event : Event
  handle : Handle
  deriving DecidableEq, Repr

abbrev Batch := List Parcel

namespace Batch

def handles (b : Batch) : List Handle := b.map (·.handle)

end Batch

structure Buffer where
  capacity : Nat
  timeout : Duration
  deadline : Instant
  batch : Batch := []
  deriving DecidableEq, Repr

namespace Buffer

def start (capacity : Nat) (timeout : Duration) (now : Instant) : Buffer :=
  { capacity, timeout, deadline := now + timeout }

def isFull (b : Buffer) : Bool := decide (b.capacity ≤ b.batch.length)

def room (b : Buffer) : Nat := b.capacity - b.batch.length

def isDue (b : Buffer) (now : Instant) : Bool := decide (b.deadline ≤ now)

def push (b : Buffer) (p : Parcel) : Buffer := { b with batch := b.batch ++ [p] }

def restartTimer (b : Buffer) (now : Instant) : Buffer := { b with deadline := now + b.timeout }

def emptied (b : Buffer) (now : Instant) : Buffer := { b.restartTimer now with batch := [] }

end Buffer

end EventIngest
