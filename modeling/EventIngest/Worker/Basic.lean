import EventIngest.Activity
import EventIngest.Settlement
import EventIngest.Writing
/-!
# Workers

A worker fetches deliveries into its buffer, writes the buffer when it is full or its deadline has
come, and settles what it wrote or could not decode. Its phase says what it waits for, and `step` is
one move of it. A cancelled worker lets go of a fetch or a pause at once, ends a write that it
began, writes what is left in its buffer and stops.
-/
namespace EventIngest

structure WorkerSettings where
  batchSize : Nat := 10
  batchTimeout : Duration := .ofSeconds 5
  fetchWait : Duration := .ofSeconds 1
  maxDeliver : Nat := 5
  retry : Retry := {}
  deriving DecidableEq, Repr

namespace Worker

/-- What a worker does after a flush: it fetches again, it goes on with deliveries (of which some
may have been rejected), or it stops. -/
inductive Next where
  | poll
  | absorb (rest : List Delivery) (rejected : Bool)
  | stop

structure Flush where
  batch : Batch
  started : Instant
  next : Next

def Flush.rows (f : Flush) : List Row := f.batch.map fun p => .ofEvent p.event

inductive Phase (φ ψ : Type) where
  | starting
  | polling
  | fetching (due : Instant) (call : φ)
  | stalled
  | pausing (due : Instant)
  | absorbing (rest : List Delivery) (rejected : Bool)
  | writing (flush : Flush) (w : Writing ψ)
  | draining
  | stopping
  | stopped
  | crashed

def Next.phase {φ ψ : Type} : Next → Phase φ ψ
  | .poll => .polling
  | .absorb rest rejected => .absorbing rest rejected
  | .stop => .stopping

end Worker

structure Worker (φ ψ : Type) where
  phase : Worker.Phase φ ψ
  buffer : Buffer

namespace Worker

variable {σ τ φ ψ : Type}

def idle (settings : WorkerSettings) (now : Instant) : Worker φ ψ :=
  ⟨.starting, .start settings.batchSize settings.batchTimeout now⟩

def hasEnded (w : Worker φ ψ) : Bool :=
  match w.phase with
  | .stopped | .crashed => true
  | _ => false

def hasCrashed (w : Worker φ ψ) : Bool :=
  match w.phase with
  | .crashed => true
  | _ => false

/-- The instant that the worker waits for, if it waits for one. -/
def due? (w : Worker φ ψ) : Option Instant :=
  match w.phase with
  | .fetching due _ | .pausing due => some due
  | .writing _ writing => some writing.due
  | _ => none

def isReady (now : Instant) (cancelled : Bool) (w : Worker φ ψ) : Bool :=
  match w.phase with
  | .starting | .polling | .absorbing .. | .draining | .stopping => true
  | .fetching due _ | .pausing due => cancelled || decide (due ≤ now)
  | .writing _ writing => decide (writing.due ≤ now)
  | .stalled => cancelled
  | .stopped | .crashed => false

/-- How long a worker pauses after a failed fetch. -/
def fetchPause : Duration := .ofSeconds 1

structure Setup (σ τ φ ψ : Type) where
  settings : WorkerSettings
  intake : Source σ φ
  store : Store τ ψ

/-- A worker and all that its moves can change. -/
structure Scene (σ τ φ ψ : Type) where
  worker : Worker φ ψ
  source : σ
  store : τ
  counters : Counters
  cancelled : Bool

namespace Scene

def goTo (s : Scene σ τ φ ψ) (phase : Phase φ ψ) : Scene σ τ φ ψ :=
  { s with worker := { s.worker with phase } }

def desk (s : Scene σ τ φ ψ) : Desk σ := ⟨s.source, s.counters, []⟩

def leave (s : Scene σ τ φ ψ) (d : Desk σ) : Scene σ τ φ ψ :=
  { s with source := d.source, counters := d.counters }

def restartTimer (s : Scene σ τ φ ψ) (now : Instant) : Scene σ τ φ ψ :=
  { s with worker := { s.worker with buffer := s.worker.buffer.restartTimer now } }

end Scene

/-- Empties the buffer and begins to write what was in it; an empty buffer needs no write. -/
def beginFlush (setup : Setup σ τ φ ψ) (now : Instant) (next : Next) (s : Scene σ τ φ ψ) :
    Scene σ τ φ ψ × List Happening :=
  let batch := s.worker.buffer.batch
  let s := { s with worker := { s.worker with buffer := s.worker.buffer.emptied now } }
  if batch.isEmpty then (s.goTo next.phase, [])
  else
    let flush : Flush := ⟨batch, now, next⟩
    let (writing, store, journal) := Writing.start setup.store s.store now flush.rows
    ({ s with store }.goTo (.writing flush writing), journal)

def endFlush (setup : Setup σ τ φ ψ) (now : Instant) (flush : Flush)
    (result : Except InsertError Nat) (s : Scene σ τ φ ψ) : Scene σ τ φ ψ × List Happening :=
  let d :=
    match result with
    | .ok attempts =>
      (s.desk.ackAll setup.intake flush.batch).note
        (.batchFlushed flush.batch.length attempts (now - flush.started))
    | .error failure => s.desk.nakAll setup.intake flush.batch failure
  (((s.leave d).restartTimer now).goTo flush.next.phase, d.journal)

def onFetch (now : Instant) (s : Scene σ τ φ ψ) : Fetch φ → Scene σ τ φ ψ × List Happening
  | .answered (.ok deliveries) =>
    (s.goTo (.absorbing deliveries false), [.fetched (.ok deliveries)])
  | .answered (.error e) =>
    (s.goTo (.pausing (now + fetchPause)), [.fetched (.error e), .notice (.fetchFailed e)])
  | .waiting time call => (s.goTo (.fetching (now + time) call), [])
  | .stalled => ({ s with cancelled := true }.goTo .stalled, [.fetchStalled])
  | .crashed => (s.goTo .crashed, [])

/-- Flushes a buffer that is due, and otherwise fetches as much as it has room for, for as long as
it may wait. -/
def poll (setup : Setup σ τ φ ψ) (now : Instant) (s : Scene σ τ φ ψ) :
    Scene σ τ φ ψ × List Happening :=
  let buffer := s.worker.buffer
  if buffer.isDue now then beginFlush setup now .poll s
  else
    let wait := min setup.settings.fetchWait (buffer.deadline - now)
    let (fetch, source) := setup.intake.fetch s.source buffer.room wait
    let (s, journal) := onFetch now { s with source } fetch
    (s, .fetch buffer.room wait :: journal)

/-- Takes in the next delivery; after the last one a fetch with rejected messages is committed. -/
def absorb (setup : Setup σ τ φ ψ) (now : Instant) (rejected : Bool) (s : Scene σ τ φ ψ) :
    List Delivery → Scene σ τ φ ψ × List Happening
  | [] =>
    let d := if rejected then s.desk.commit setup.intake else s.desk
    ((s.leave d).goTo .polling, d.journal)
  | delivery :: rest =>
    match delivery.content with
    | .ok event =>
      let buffer := s.worker.buffer.push ⟨event, delivery.handle⟩
      let s := { s with
        worker := { s.worker with buffer }, counters := s.counters.addProcessed 1 }
      if buffer.isFull then beginFlush setup now (.absorb rest rejected) s
      else (s.goTo (.absorbing rest rejected), [])
    | .error malformed =>
      let d := s.desk.reject setup.intake setup.settings.maxDeliver delivery.handle malformed
      ((s.leave d).goTo (.absorbing rest true), d.journal)

def step (setup : Setup σ τ φ ψ) (now : Instant) (s : Scene σ τ φ ψ) :
    Scene σ τ φ ψ × List Happening :=
  match s.worker.phase with
  | .starting => ((s.restartTimer now).goTo .polling, [.notice .workerStarted])
  | .polling => if s.cancelled then (s.goTo .draining, []) else poll setup now s
  | .fetching _ call =>
    if s.cancelled then (s.goTo .draining, [])
    else
      let (fetch, source) := setup.intake.resume s.source call
      onFetch now { s with source } fetch
  | .stalled => (s.goTo .draining, [])
  | .pausing _ => if s.cancelled then (s.goTo .draining, []) else (s.goTo .polling, [])
  | .absorbing rest rejected => absorb setup now rejected s rest
  | .writing flush writing =>
    let (outcome, store, journal) :=
      writing.step setup.store setup.settings.retry s.store now flush.rows
    let s := { s with store }
    match outcome with
    | .inl writing => (s.goTo (.writing flush writing), journal)
    | .inr result =>
      let (s, settled) := endFlush setup now flush result s
      (s, journal ++ settled)
  | .draining =>
    let n := s.worker.buffer.batch.length
    if n = 0 then (s.goTo .stopping, [])
    else
      let (s, journal) := beginFlush setup now .stop s
      (s, .notice (.lastFlush n) :: journal)
  | .stopping => (s.goTo .stopped, [.notice .workerStopped])
  | .stopped | .crashed => (s, [])

def activity (setup : Setup σ τ φ ψ) : Activity (Scene σ τ φ ψ) Happening where
  move? now s := if s.worker.isReady now s.cancelled then some (step setup now s) else none
  due? s := s.worker.due?

def Scene.start (settings : WorkerSettings) (source : σ) (store : τ) : Scene σ τ φ ψ where
  worker := idle settings 0
  source := source
  store := store
  counters := {}
  cancelled := false

end Worker

end EventIngest
