import EventIngest.Batch
import EventIngest.Counters
import EventIngest.Journal
import EventIngest.Source
/-!
# Settlement

How messages are settled once their fate is known. Every message of a stored batch is acknowledged
and every message of a failed one is given back, one after another whatever the single calls answer,
and then the source is told to commit. A message without an event is given back until it has been
delivered often enough to be put aside.
-/
namespace EventIngest

/-- What settling changes, and the journal of it. -/
structure Desk (σ : Type) where
  source : σ
  counters : Counters
  journal : List Happening

namespace Desk

variable {σ φ : Type}

def record (d : Desk σ) (h : Happening) : Desk σ := { d with journal := d.journal ++ [h] }

def note (d : Desk σ) (n : Notice) : Desk σ := d.record (.notice n)

def check (d : Desk σ) (result : Except SourceError Unit) (failed : SourceError → Notice) :
    Desk σ :=
  match result with
  | .ok _ => d
  | .error e => d.note (failed e)

def ack (intake : Source σ φ) (failed : Handle → SourceError → Notice) (d : Desk σ) (h : Handle) :
    Desk σ :=
  let (result, source) := intake.ack d.source h
  ({ d with source }.record (.ack h result)).check result (failed h)

def nak (intake : Source σ φ) (d : Desk σ) (h : Handle) : Desk σ :=
  let (result, source) := intake.nak d.source h
  ({ d with source }.record (.nak h result)).check result (.nakFailed h)

def commit (intake : Source σ φ) (d : Desk σ) : Desk σ :=
  let (result, source) := intake.commit d.source
  ({ d with source }.record (.commit result)).check result .commitFailed

def ackAll (intake : Source σ φ) (d : Desk σ) (batch : Batch) : Desk σ :=
  let d := (batch.handles.foldl (ack intake .ackFailed) d).commit intake
  { d with counters := d.counters.addInserted batch.length }

def nakAll (intake : Source σ φ) (d : Desk σ) (batch : Batch) (failure : InsertError) : Desk σ :=
  let d := d.note (.batchReturned batch.length failure.attempts failure.last)
  let d := (batch.handles.foldl (nak intake) d).commit intake
  { d with counters := d.counters.addErrors batch.length }

/-- A message delivered so often is not to be given back again; a limit of zero is none. -/
def isSpent (maxDeliver : Nat) (h : Handle) : Bool :=
  decide (maxDeliver ≠ 0 ∧ maxDeliver ≤ h.deliveryCount)

/-- Puts a message aside and acknowledges it, or gives it back when that fails. -/
def putAside (intake : Source σ φ) (d : Desk σ) (h : Handle) (m : Malformed) : Desk σ :=
  let (result, source) := intake.deadLetter d.source h m.raw m.reason.message
  let d := { d with source }.record (.deadLetter h m.raw m.reason.message result)
  match result with
  | .ok _ => ack intake .deadLetterAckFailed d h
  | .error e => nak intake (d.note (.deadLetterFailed h e)) h

/-- Settles a message that holds no event. -/
def reject (intake : Source σ φ) (maxDeliver : Nat) (d : Desk σ) (h : Handle) (m : Malformed) :
    Desk σ :=
  let d := { d with counters := d.counters.addErrors 1 }
  let d := d.note (.undecodable h m.reason)
  if isSpent maxDeliver h then d.putAside intake h m else nak intake d h

end Desk

end EventIngest
