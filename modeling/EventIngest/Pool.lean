import EventIngest.Worker.Basic
/-!
# Pools of workers

A pool starts one worker per source, all of them with the same store and counters, and waits until
every one has ended. Its moves may come in any order in which they are enabled; `next?` is one such
order. The status counts the workers that are running, and is ready while all of them are and no end
is in sight.
-/
namespace EventIngest

structure PoolStatus where
  expected : Nat := 0
  live : Nat := 0
  shuttingDown : Bool := false
  deriving DecidableEq, Repr

def PoolStatus.isReady (s : PoolStatus) : Bool :=
  decide (0 < s.expected ∧ s.live = s.expected) && !s.shuttingDown

namespace Pool

inductive Phase where
  | idle
  | spawning
  | joining
  | ended
  deriving DecidableEq, Repr

/-- What workers of a pool work with: each has an intake of its own to the sources' common state. -/
structure Setup (σ τ φ ψ : Type) where
  settings : WorkerSettings
  size : Nat
  intake : Nat → Source σ φ
  store : Store τ ψ

def Setup.worker {σ τ φ ψ : Type} (setup : Setup σ τ φ ψ) (i : Nat) : Worker.Setup σ τ φ ψ :=
  ⟨setup.settings, setup.intake i, setup.store⟩

structure Event where
  worker : Option Nat
  happening : Happening

/-- The pool begins, starts its next worker, notices that it is cancelled, lets a worker move, or
ends. -/
inductive Move where
  | begin
  | spawn
  | watch
  | work (i : Nat)
  | finish
  deriving DecidableEq, Repr

end Pool

structure Pool (σ τ φ ψ : Type) where
  phase : Pool.Phase
  status : PoolStatus
  workers : List (Worker φ ψ)
  source : σ
  store : τ
  counters : Counters
  cancelled : Bool

namespace Pool

variable {σ τ φ ψ : Type}

def start (source : σ) (store : τ) : Pool σ τ φ ψ where
  phase := .idle
  status := {}
  workers := []
  source := source
  store := store
  counters := {}
  cancelled := false

def scene (p : Pool σ τ φ ψ) (w : Worker φ ψ) : Worker.Scene σ τ φ ψ :=
  ⟨w, p.source, p.store, p.counters, p.cancelled⟩

def hasEnded (p : Pool σ τ φ ψ) : Bool := p.workers.all Worker.hasEnded

def isEnabled (now : Instant) (p : Pool σ τ φ ψ) : Move → Bool
  | .begin => p.phase == .idle
  | .spawn => p.phase == .spawning
  | .watch => p.phase == .joining && p.cancelled && !p.status.shuttingDown
  | .work i => ((p.workers[i]?).map (·.isReady now p.cancelled)).getD false
  | .finish => p.phase == .joining && p.hasEnded

/-- Lets a worker make its move; a worker that ends is no longer live. -/
def work (setup : Setup σ τ φ ψ) (now : Instant) (i : Nat) (w : Worker φ ψ) (p : Pool σ τ φ ψ) :
    Pool σ τ φ ψ × List Event :=
  let (s, journal) := Worker.step (setup.worker i) now (p.scene w)
  let live := if s.worker.hasEnded && !w.hasEnded then p.status.live - 1 else p.status.live
  ({ p with
      workers := p.workers.set i s.worker
      status := { p.status with live }
      source := s.source
      store := s.store
      counters := s.counters
      cancelled := s.cancelled },
    journal.map (⟨some i, ·⟩))

def crashed (p : Pool σ τ φ ψ) : List Nat :=
  (p.workers.zipIdx.filter fun w => w.1.hasCrashed).map Prod.snd

def apply (setup : Setup σ τ φ ψ) (now : Instant) (p : Pool σ τ φ ψ) :
    Move → Pool σ τ φ ψ × List Event
  | .begin =>
    ({ p with phase := .spawning, status := { p.status with expected := setup.size } },
      [⟨none, .notice (.poolStarted setup.size)⟩])
  | .spawn =>
    if p.workers.length < setup.size then
      ({ p with
          workers := p.workers ++ [Worker.idle setup.settings now]
          status := { p.status with live := p.status.live + 1 } }, [])
    else ({ p with phase := .joining }, [])
  | .watch => ({ p with status := { p.status with shuttingDown := true } }, [])
  | .work i =>
    match p.workers[i]? with
    | some w => work setup now i w p
    | none => (p, [])
  | .finish =>
    ({ p with phase := .ended, status := { p.status with shuttingDown := true } },
      p.crashed.map (fun i => ⟨some i, .notice .workerLost⟩) ++ [⟨none, .notice .poolStopped⟩])

/-- The first enabled move: the pool's own ones before those of its workers, and its end last. -/
def next? (now : Instant) (p : Pool σ τ φ ψ) : Option Move :=
  let moves : List Move :=
    [.begin, .spawn, .watch] ++ (List.range p.workers.length).map .work ++ [.finish]
  moves.find? (p.isEnabled now)

def activity (setup : Setup σ τ φ ψ) : Activity (Pool σ τ φ ψ) Event where
  move? now p := (p.next? now).map (p.apply setup now)
  due? p := (p.workers.filterMap Worker.due?).min?

end Pool

end EventIngest
