import EventIngest.Journal
/-!
# Writing a batch

The rows of a batch are sent to the store until an attempt succeeds or the last one has failed.
After the `n`-th failed attempt, unless it is the last, the writer pauses for `n` units. Attempts
are counted with 32 bits, and the count stops at its largest value.
-/
namespace EventIngest

/-- Where rows are written. An insert takes some time and then succeeds or fails; what it remembers
in between is a call. -/
structure Store (State Call : Type) where
  /-- Begins to write rows at an instant, and tells how long that takes. -/
  insert : State → Instant → List Row → Duration × Call × State
  /-- Ends the call at a later instant. -/
  finish : State → Instant → Call → List Row → Except StoreError Unit × State

structure Retry where
  maxRetries : Nat := 3
  unit : Duration := .ofSeconds 1
  deriving DecidableEq, Repr

namespace Retry

def mostAttempts : Nat := 0xFFFFFFFF

def maxAttempts (r : Retry) : Nat := min (r.maxRetries + 1) mostAttempts

/-- How long to wait after a failed attempt. -/
def pause (r : Retry) (attempt : Nat) : Duration := r.unit.times attempt

def nextAttempt (attempt : Nat) : Nat := min (attempt + 1) mostAttempts

end Retry

/-- Rows on their way into the store: an attempt that the store is busy with, or the pause after a
failed one. -/
inductive Writing (ψ : Type) where
  | calling (attempt : Nat) (due : Instant) (call : ψ)
  | pausing (attempt : Nat) (due : Instant)

namespace Writing

variable {τ ψ : Type}

def due : Writing ψ → Instant
  | calling _ due _ | pausing _ due => due

def call (store : Store τ ψ) (s : τ) (now : Instant) (rows : List Row) (attempt : Nat) :
    Writing ψ × τ × List Happening :=
  let (delay, c, s) := store.insert s now rows
  (.calling attempt (now + delay) c, s, [.insert rows])

def start (store : Store τ ψ) (s : τ) (now : Instant) (rows : List Row) :
    Writing ψ × τ × List Happening :=
  call store s now rows (Retry.nextAttempt 0)

/-- The next step, taken when it is due: the writing goes on, or it is over after so many attempts
or with an error. -/
def step (store : Store τ ψ) (retry : Retry) (s : τ) (now : Instant) (rows : List Row) :
    Writing ψ → (Writing ψ ⊕ Except InsertError Nat) × τ × List Happening
  | .calling attempt _ c =>
    let (result, s) := store.finish s now c rows
    match result with
    | .ok _ =>
      (.inr (.ok attempt), s,
        [.inserted rows result, .notice (.batchInserted rows.length attempt)])
    | .error e =>
      if retry.maxAttempts ≤ attempt then
        (.inr (.error ⟨rows.length, attempt, e⟩), s, [.inserted rows result])
      else
        let pause := retry.pause attempt
        (.inl (.pausing attempt (pause.overAt now)), s,
          [.inserted rows result, .notice (.insertFailed rows.length attempt pause e)])
  | .pausing attempt _ =>
    let (w, s, journal) := call store s now rows (Retry.nextAttempt attempt)
    (.inl w, s, journal)

/-- How the writing of rows ended, when, and the journal with the time of each entry. -/
structure Outcome (τ : Type) where
  result : Except InsertError Nat
  time : Instant
  store : τ
  journal : List (Instant × Happening)

def Outcome.after (o : Outcome τ) (earlier : List (Instant × Happening)) : Outcome τ :=
  { o with journal := earlier ++ o.journal }

/-- Goes on for at most so many steps, each at the instant at which it is due. -/
def run (store : Store τ ψ) (retry : Retry) (rows : List Row) :
    Nat → Writing ψ → τ → Option (Outcome τ)
  | 0, _, _ => none
  | fuel + 1, w, s =>
    let now := w.due
    match w.step store retry s now rows with
    | (.inl w, s, journal) => (run store retry rows fuel w s).map (·.after (journal.map (now, ·)))
    | (.inr result, s, journal) => some ⟨result, now, s, journal.map (now, ·)⟩

/-- Writes rows from an instant on. An attempt takes two steps at most. -/
def write (store : Store τ ψ) (retry : Retry) (s : τ) (now : Instant) (rows : List Row) :
    Option (Outcome τ) :=
  let (w, s, journal) := start store s now rows
  (run store retry rows (2 * retry.maxAttempts) w s).map (·.after (journal.map (now, ·)))

end Writing

end EventIngest
