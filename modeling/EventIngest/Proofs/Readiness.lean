import EventIngest.Health
import EventIngest.Proofs.PoolCourse
import EventIngest.Proofs.SettledOnce
/-!
# Readiness of a pool

The status of a pool counts the workers whose task has not ended, in whatever order they move and
wherever they crash. A pool is ready from the start of its last worker until a worker ends or the end
of the pool is in sight, and never again after that. When the pool has ended, every worker has, and
what a worker that did not crash took in is settled.
-/
namespace EventIngest.Pool

open Journal
open Worker (idle Chronicle)

variable {α σ ρ τ φ ψ : Type}

/-- A turn of the course of a pool, or a crash of a worker wherever it stands. -/
inductive Incident (α τ : Type) where
  | turn (t : Turn α τ)
  | crash (i : Nat)

/-- A worker crashes, unless it has ended before. It is no longer live. -/
def crash (i : Nat) (p : Pool σ τ φ ψ) : Pool σ τ φ ψ :=
  match p.workers[i]? with
  | some w =>
    if w.hasEnded then p
    else { p with
      workers := p.workers.set i { w with phase := .crashed }
      status := { p.status with live := p.status.live - 1 } }
  | none => p

namespace Course

def incident (crew : Crew σ ρ τ φ ψ) (act : α → ρ → ρ) (c : Course σ τ φ ψ) :
    Incident α τ → Course σ τ φ ψ
  | .turn t => c.turn crew act t
  | .crash i => { c with pool := c.pool.crash i }

def history (crew : Crew σ ρ τ φ ψ) (act : α → ρ → ρ) (incidents : List (Incident α τ))
    (c : Course σ τ φ ψ) : Course σ τ φ ψ := incidents.foldl (incident crew act) c

theorem history_nil (crew : Crew σ ρ τ φ ψ) (act : α → ρ → ρ) (c : Course σ τ φ ψ) :
    history crew act [] c = c := rfl

theorem history_append (crew : Crew σ ρ τ φ ψ) (act : α → ρ → ρ)
    (before after : List (Incident α τ)) (c : Course σ τ φ ψ) :
    history crew act (before ++ after) c = history crew act after (history crew act before c) :=
  List.foldl_append

end Course

def running (p : Pool σ τ φ ψ) : Nat := p.workers.countP (!·.hasEnded)

/-- All that can happen to the workers of a pool and to its status at once. -/
inductive Shift (size : Nat) (p p' : Pool σ τ φ ψ) : Prop where
  | keep (hPhase : p'.phase = p.phase) (hWorkers : p'.workers = p.workers)
      (hStatus : p'.status = p.status)
  | begin (hIdle : p.phase = .idle) (hPhase : p'.phase = .spawning)
      (hWorkers : p'.workers = p.workers) (hStatus : p'.status = { p.status with expected := size })
  | hire (w : Worker φ ψ) (hSpawning : p.phase = .spawning) (hRoom : p.workers.length < size)
      (hRuns : w.hasEnded = false) (hPhase : p'.phase = .spawning)
      (hWorkers : p'.workers = p.workers ++ [w])
      (hStatus : p'.status = { p.status with live := p.status.live + 1 })
  | complete (hSpawning : p.phase = .spawning) (hFull : size ≤ p.workers.length)
      (hPhase : p'.phase = .joining) (hWorkers : p'.workers = p.workers)
      (hStatus : p'.status = p.status)
  | step (i : Nat) (w w' : Worker φ ψ) (hWorker : p.workers[i]? = some w)
      (hRuns : w.hasEnded = false) (hPhase : p'.phase = p.phase)
      (hWorkers : p'.workers = p.workers.set i w')
      (hStatus : p'.status
        = { p.status with live := if w'.hasEnded then p.status.live - 1 else p.status.live })
  | flag (hPhase : p'.phase = p.phase) (hWorkers : p'.workers = p.workers)
      (hStatus : p'.status = { p.status with shuttingDown := true })
  | finish (hJoining : p.phase = .joining) (hEnded : p.hasEnded = true) (hPhase : p'.phase = .ended)
      (hWorkers : p'.workers = p.workers)
      (hStatus : p'.status = { p.status with shuttingDown := true })

theorem not_ended_of_isReady {w : Worker φ ψ} {now : Instant} {cancelled : Bool}
    (h : w.isReady now cancelled = true) : w.hasEnded = false := by
  obtain ⟨phase, buffer⟩ := w
  cases phase with
  | stopped | crashed => cases h
  | _ => rfl

theorem turn_shift (crew : Crew σ ρ τ φ ψ) (act : α → ρ → ρ) (c : Course σ τ φ ψ)
    (t : Turn α τ) : Shift crew.size c.pool (c.turn crew act t).pool := by
  cases t with
  | cancel | outside _ _ | store _ => exact .keep rfl rfl rfl
  | move now m =>
    simp only [Course.turn]
    split
    case isFalse => exact .keep rfl rfl rfl
    case isTrue hEnabled =>
      cases m with
      | begin => exact .begin (beq_iff_eq.mp hEnabled) rfl rfl rfl
      | watch => exact .flag rfl rfl rfl
      | spawn =>
        have hSpawning : c.pool.phase = .spawning := beq_iff_eq.mp hEnabled
        simp only [apply]
        split
        · rename_i hRoom
          exact .hire (idle crew.settings now) hSpawning hRoom rfl hSpawning rfl rfl
        · rename_i hFull
          exact .complete hSpawning (Nat.le_of_not_lt hFull) rfl rfl rfl
      | finish =>
        obtain ⟨hJoining, hEnded⟩ := Bool.and_eq_true_iff.mp hEnabled
        exact .finish (beq_iff_eq.mp hJoining) hEnded rfl rfl rfl
      | work i =>
        cases hWorker : c.pool.workers[i]? with
        | none => simp [isEnabled, hWorker] at hEnabled
        | some w =>
          simp only [isEnabled, hWorker, Option.map_some, Option.getD_some] at hEnabled
          have hRuns := not_ended_of_isReady hEnabled
          simp only [apply, hWorker]
          refine .step i w _ hWorker hRuns rfl rfl ?_
          simp only [work, hRuns, Bool.not_false, Bool.and_true]
          rfl

theorem crash_shift (size i : Nat) (p : Pool σ τ φ ψ) : Shift size p (p.crash i) := by
  simp only [crash]
  split
  · rename_i w hWorker
    split
    · exact .keep rfl rfl rfl
    · rename_i hRuns
      exact .step i w _ hWorker (Bool.eq_false_iff.mpr hRuns) rfl rfl rfl
  · exact .keep rfl rfl rfl

theorem incident_shift (crew : Crew σ ρ τ φ ψ) (act : α → ρ → ρ) (c : Course σ τ φ ψ)
    (e : Incident α τ) : Shift crew.size c.pool (c.incident crew act e).pool := by
  cases e with
  | turn t => exact turn_shift crew act c t
  | crash i => exact crash_shift crew.size i c.pool

/-- The status counts the workers of a pool, which are hired one after another up to the size of the
pool. -/
structure Staffed (size : Nat) (p : Pool σ τ φ ψ) : Prop where
  live : p.status.live = p.running
  expected : p.status.expected = if p.phase = .idle then 0 else size
  fresh : p.phase = .idle → p.workers = []
  fits : p.workers.length ≤ size
  complete : p.phase = .joining ∨ p.phase = .ended → p.workers.length = size
  ended : p.phase = .ended → p.hasEnded = true ∧ p.status.shuttingDown = true

theorem staffed_start (size : Nat) (source : σ) (store : τ) :
    Staffed size (start source store : Pool σ τ φ ψ) :=
  ⟨rfl, rfl, fun _ => rfl, Nat.zero_le _, fun h => by simp [start] at h, nofun⟩

/-- One of the workers has ended, or the end of the pool is in sight. -/
def IsSpoiled (p : Pool σ τ φ ψ) : Prop :=
  p.status.shuttingDown = true ∨ ∃ (i : Nat) (w : Worker φ ψ),
    p.workers[i]? = some w ∧ w.hasEnded = true

theorem running_hire (p p' : Pool σ τ φ ψ) {w : Worker φ ψ} (hRuns : w.hasEnded = false)
    (hWorkers : p'.workers = p.workers ++ [w]) : p'.running = p.running + 1 := by
  rw [running, hWorkers, List.countP_append, List.countP_singleton, hRuns]
  rfl

theorem running_step (p p' : Pool σ τ φ ψ) {i : Nat} {w w' : Worker φ ψ}
    (hWorker : p.workers[i]? = some w) (hRuns : w.hasEnded = false)
    (hWorkers : p'.workers = p.workers.set i w') :
    p'.running = if w'.hasEnded then p.running - 1 else p.running := by
  obtain ⟨hLess, hAt⟩ := List.getElem?_eq_some_iff.mp hWorker
  have hPos : 0 < p.running :=
    List.countP_pos_iff.mpr ⟨w, List.mem_of_getElem? hWorker, by rw [hRuns]; rfl⟩
  rw [running] at hPos
  rw [running, running, hWorkers, List.countP_set hLess, hAt, hRuns]
  cases w'.hasEnded with
  | false => simp only [Bool.not_false, if_true, Bool.false_eq_true, if_false]; omega
  | true => simp

/-- In an ended pool no worker runs. -/
theorem Staffed.phase_ne_ended {size : Nat} {p : Pool σ τ φ ψ} (h : Staffed size p) {i : Nat}
    {w : Worker φ ψ} (hWorker : p.workers[i]? = some w) (hRuns : w.hasEnded = false) :
    p.phase ≠ .ended := by
  intro hPhase
  have hEnded := List.all_eq_true.mp (h.ended hPhase).1 w (List.mem_of_getElem? hWorker)
  rw [hRuns] at hEnded
  cases hEnded

namespace Shift

variable {size : Nat} {p p' : Pool σ τ φ ψ}

theorem staffed (h : Shift size p p') (hp : Staffed size p) : Staffed size p' := by
  have hSame : p'.workers = p.workers → p'.running = p.running ∧ p'.hasEnded = p.hasEnded :=
    fun hWorkers => by rw [running, running, hasEnded, hasEnded, hWorkers]; exact ⟨rfl, rfl⟩
  cases h with
  | keep hPhase hWorkers hStatus =>
    obtain ⟨hRunning, hEnded⟩ := hSame hWorkers
    exact ⟨by rw [hStatus, hRunning, hp.live], by rw [hStatus, hPhase, hp.expected],
      by rw [hPhase, hWorkers]; exact hp.fresh, by rw [hWorkers]; exact hp.fits,
      by rw [hPhase, hWorkers]; exact hp.complete, by rw [hPhase, hEnded, hStatus]; exact hp.ended⟩
  | begin hIdle hPhase hWorkers hStatus =>
    obtain ⟨hRunning, -⟩ := hSame hWorkers
    exact ⟨by rw [hStatus, hRunning, ← hp.live], by rw [hStatus, hPhase]; rfl,
      by rw [hPhase]; nofun, by rw [hWorkers]; exact hp.fits,
      by rw [hPhase]; exact fun h => by simp at h, by rw [hPhase]; nofun⟩
  | hire w hSpawning hRoom hRuns hPhase hWorkers hStatus =>
    refine ⟨?_, ?_, by rw [hPhase]; nofun, ?_, by rw [hPhase]; exact fun h => by simp at h,
      by rw [hPhase]; nofun⟩
    · rw [hStatus, running_hire p p' hRuns hWorkers, hp.live]
    · rw [hStatus, hPhase, hp.expected, hSpawning]
    · rw [hWorkers, List.length_append, List.length_singleton]
      exact hRoom
  | complete hSpawning hFull hPhase hWorkers hStatus =>
    obtain ⟨hRunning, -⟩ := hSame hWorkers
    refine ⟨by rw [hStatus, hRunning, hp.live], ?_, by rw [hPhase]; nofun,
      by rw [hWorkers]; exact hp.fits, ?_, by rw [hPhase]; nofun⟩
    · rw [hStatus, hPhase, hp.expected, hSpawning]
      rfl
    · rw [hWorkers]
      exact fun _ => Nat.le_antisymm hp.fits hFull
  | step i w w' hWorker hRuns hPhase hWorkers hStatus =>
    have hLength : p'.workers.length = p.workers.length := by rw [hWorkers, List.length_set]
    refine ⟨?_, by rw [hStatus, hPhase, hp.expected], ?_, hLength ▸ hp.fits, ?_, ?_⟩
    · rw [hStatus, running_step p p' hWorker hRuns hWorkers, ← hp.live]
    · intro hIdle
      rw [hp.fresh (hPhase ▸ hIdle)] at hWorker
      cases hWorker
    · rw [hPhase, hLength]
      exact hp.complete
    · intro hOver
      exact absurd (hPhase ▸ hOver) (hp.phase_ne_ended hWorker hRuns)
  | flag hPhase hWorkers hStatus =>
    obtain ⟨hRunning, hEnded⟩ := hSame hWorkers
    refine ⟨by rw [hStatus, hRunning, ← hp.live], by rw [hStatus, hPhase, ← hp.expected],
      by rw [hPhase, hWorkers]; exact hp.fresh, by rw [hWorkers]; exact hp.fits,
      by rw [hPhase, hWorkers]; exact hp.complete, ?_⟩
    rw [hPhase, hEnded, hStatus]
    exact fun hOver => ⟨(hp.ended hOver).1, rfl⟩
  | finish hJoining hAll hPhase hWorkers hStatus =>
    obtain ⟨hRunning, hEnded⟩ := hSame hWorkers
    refine ⟨by rw [hStatus, hRunning, ← hp.live], ?_, by rw [hPhase]; nofun,
      by rw [hWorkers]; exact hp.fits, by rw [hWorkers]; exact fun _ => hp.complete (.inl hJoining),
      fun _ => ⟨hEnded ▸ hAll, by rw [hStatus]⟩⟩
    rw [hStatus, hPhase, hp.expected, hJoining]
    rfl

/-- An end that is in sight stays in sight, and a worker that has ended does not come back. -/
theorem isSpoiled (h : Shift size p p') (hp : p.IsSpoiled) : p'.IsSpoiled := by
  have hFlag : p'.status.shuttingDown = p.status.shuttingDown → p'.workers = p.workers →
      p'.IsSpoiled := by
    intro hFlag hWorkers
    rwa [IsSpoiled, hFlag, hWorkers]
  cases h with
  | keep _ hWorkers hStatus | begin _ _ hWorkers hStatus | complete _ _ _ hWorkers hStatus =>
    exact hFlag (by rw [hStatus]) hWorkers
  | flag _ _ hStatus | finish _ _ _ _ hStatus => exact .inl (by rw [hStatus])
  | hire w _ _ _ _ hWorkers hStatus =>
    obtain hDown | ⟨i, v, hv, hEnded⟩ := hp
    · exact .inl (by rw [hStatus]; exact hDown)
    · refine .inr ⟨i, v, ?_, hEnded⟩
      rw [hWorkers, List.getElem?_append_left (List.getElem?_eq_some_iff.mp hv).1, hv]
  | step i w w' hWorker hRuns _ hWorkers hStatus =>
    obtain hDown | ⟨j, v, hv, hEnded⟩ := hp
    · exact .inl (by rw [hStatus]; exact hDown)
    · have hOther : i ≠ j := by
        rintro rfl
        rw [hWorker] at hv
        rw [Option.some.inj hv, hEnded] at hRuns
        cases hRuns
      refine .inr ⟨j, v, ?_, hEnded⟩
      rw [hWorkers, List.getElem?_set_ne hOther, hv]

theorem flagged (h : Shift size p p') (hp : p.status.shuttingDown = true) :
    p'.status.shuttingDown = true := by
  cases h with
  | keep _ _ hStatus | begin _ _ _ hStatus | hire _ _ _ _ _ _ hStatus | complete _ _ _ _ hStatus
  | step _ _ _ _ _ _ _ hStatus => rw [hStatus]; exact hp
  | flag _ _ hStatus | finish _ _ _ _ hStatus => rw [hStatus]

theorem begun (h : Shift size p p') (hp : p.phase ≠ .idle) : p'.phase ≠ .idle := by
  cases h with
  | keep hPhase | flag hPhase | step _ _ _ _ _ hPhase => rwa [hPhase]
  | begin _ hPhase | hire _ _ _ _ hPhase | complete _ _ hPhase | finish _ _ hPhase =>
    rw [hPhase]
    nofun

theorem length_le (h : Shift size p p') : p.workers.length ≤ p'.workers.length := by
  cases h with
  | keep _ hWorkers | flag _ hWorkers | begin _ _ hWorkers | complete _ _ _ hWorkers
  | finish _ _ _ hWorkers => exact Nat.le_of_eq (congrArg List.length hWorkers.symm)
  | hire _ _ _ _ _ hWorkers =>
    rw [hWorkers, List.length_append]
    exact Nat.le_add_right _ _
  | step _ _ _ _ _ _ hWorkers => exact Nat.le_of_eq (by rw [hWorkers, List.length_set])

end Shift

/-- The pool has a worker at least, all of its workers were hired and run, and no end is in sight. -/
def AllRun (size : Nat) (p : Pool σ τ φ ψ) : Prop :=
  0 < size ∧ p.workers.length = size ∧ (∀ w ∈ p.workers, w.hasEnded = false) ∧
    p.status.shuttingDown = false

theorem Staffed.isReady_iff {size : Nat} {p : Pool σ τ φ ψ} (h : Staffed size p) :
    p.status.isReady = true ↔ p.AllRun size := by
  have hAll : p.running = p.workers.length ↔ ∀ w ∈ p.workers, w.hasEnded = false := by
    simp [running, List.countP_eq_length]
  have hLe : p.running ≤ p.workers.length := List.countP_le_length
  have hFits := h.fits
  simp only [PoolStatus.isReady, AllRun, Bool.and_eq_true, decide_eq_true_eq, Bool.not_eq_true',
    h.live, h.expected, ← hAll, and_assoc]
  by_cases hIdle : p.phase = .idle
  · -- Before the pool begins it expects no worker and has none.
    have hNone : p.workers.length = 0 := by rw [h.fresh hIdle]; rfl
    simp only [hIdle, if_true]
    omega
  · simp only [hIdle, if_false]
    constructor
    · rintro ⟨hSize, hRunning, hDown⟩
      exact ⟨hSize, by omega, by omega, hDown⟩
    · rintro ⟨hSize, hLength, hRunning, hDown⟩
      exact ⟨hSize, by omega, hDown⟩

theorem IsSpoiled.not_ready {size : Nat} {p : Pool σ τ φ ψ} (hp : p.IsSpoiled)
    (h : Staffed size p) : p.status.isReady = false := by
  refine Bool.eq_false_iff.mpr fun hReady => ?_
  obtain ⟨-, -, hAll, hFlag⟩ := h.isReady_iff.mp hReady
  obtain hDown | ⟨i, w, hw, hEnded⟩ := hp
  · rw [hFlag] at hDown
    cases hDown
  · rw [hAll w (List.mem_of_getElem? hw)] at hEnded
    cases hEnded

/-- A pool that was ready can stop being so only for good. -/
theorem Staffed.isSpoiled_of_lost {size : Nat} {p p' : Pool σ τ φ ψ} (h : Staffed size p)
    (h' : Staffed size p') (hReady : p.status.isReady = true)
    (hLength : p.workers.length ≤ p'.workers.length) (hLost : p'.status.isReady = false) :
    p'.IsSpoiled := by
  obtain ⟨hSize, hHired, -⟩ := h.isReady_iff.mp hReady
  -- No worker is hired after the last one, so only an ended worker or the flag is left to blame.
  have hFull : p'.workers.length = size := Nat.le_antisymm h'.fits (hHired ▸ hLength)
  refine Classical.byContradiction fun hSound => ?_
  obtain ⟨hFlag, hRuns⟩ := not_or.mp hSound
  refine Bool.eq_false_iff.mp hLost (h'.isReady_iff.mpr ⟨hSize, hFull, fun w hw => ?_, ?_⟩)
  · obtain ⟨i, hi⟩ := List.mem_iff_getElem?.mp hw
    exact Bool.eq_false_iff.mpr fun hEnded => hRuns ⟨i, w, hi, hEnded⟩
  · exact Bool.eq_false_iff.mpr hFlag

section History

variable (crew : Crew σ ρ τ φ ψ) (act : α → ρ → ρ)

theorem history_keeps {P : Pool σ τ φ ψ → Prop}
    (hKeeps : ∀ {p p' : Pool σ τ φ ψ}, Shift crew.size p p' → P p → P p') {c : Course σ τ φ ψ}
    (h : P c.pool) (incidents : List (Incident α τ)) :
    P (c.history crew act incidents).pool := by
  induction incidents generalizing c with
  | nil => exact h
  | cons e incidents ih => exact ih (hKeeps (incident_shift crew act c e) h)

theorem staffed_history (source : σ) (store : τ) (incidents : List (Incident α τ)) :
    Staffed crew.size (Course.history crew act incidents (.start source store)).pool :=
  history_keeps crew act Shift.staffed (staffed_start crew.size source store) incidents

/-- Nothing changes any more in a pool that has ended. -/
theorem incident_ended {c : Course σ τ φ ψ} (h : Staffed crew.size c.pool)
    (hOver : c.pool.phase = .ended) (e : Incident α τ) :
    (c.incident crew act e).pool.phase = .ended ∧
      (c.incident crew act e).pool.workers = c.pool.workers ∧
      (c.incident crew act e).pool.status = c.pool.status ∧
      (c.incident crew act e).journal = c.journal := by
  have hEnded : ∀ (i : Nat) (w : Worker φ ψ), c.pool.workers[i]? = some w → w.hasEnded = true :=
    fun i w hw => List.all_eq_true.mp (h.ended hOver).1 w (List.mem_of_getElem? hw)
  cases e with
  | crash i =>
    have hSame : c.pool.crash i = c.pool := by
      simp only [crash]
      split
      · rename_i w hWorker
        exact if_pos (hEnded i w hWorker)
      · rfl
    rw [Course.incident, hSame]
    exact ⟨hOver, rfl, rfl, rfl⟩
  | turn t =>
    cases t with
    | cancel | outside _ _ | store _ => exact ⟨hOver, rfl, rfl, rfl⟩
    | move now m =>
      have hDisabled : c.pool.isEnabled now m = false := by
        cases m with
        | work i =>
          cases hWorker : c.pool.workers[i]? with
          | none => simp [isEnabled, hWorker]
          | some w =>
            simp only [isEnabled, hWorker, Option.map_some, Option.getD_some]
            refine Bool.eq_false_iff.mpr fun hReady => ?_
            have hRuns := not_ended_of_isReady hReady
            rw [hEnded i w hWorker] at hRuns
            cases hRuns
        | begin | spawn | watch | finish => simp [isEnabled, hOver]
      have hSame : c.turn crew act (.move now m) = c := by
        rw [Course.turn, hDisabled]
        rfl
      rw [Course.incident, hSame]
      exact ⟨hOver, rfl, rfl, rfl⟩

theorem history_ended {c : Course σ τ φ ψ} (h : Staffed crew.size c.pool)
    (hOver : c.pool.phase = .ended) (incidents : List (Incident α τ)) :
    (c.history crew act incidents).pool.phase = .ended ∧
      (c.history crew act incidents).pool.workers = c.pool.workers ∧
      (c.history crew act incidents).pool.status = c.pool.status ∧
      (c.history crew act incidents).journal = c.journal := by
  induction incidents generalizing c with
  | nil => exact ⟨hOver, rfl, rfl, rfl⟩
  | cons e incidents ih =>
    obtain ⟨hPhase, hWorkers, hStatus, hJournal⟩ := incident_ended crew act h hOver e
    obtain ⟨hPhase', hWorkers', hStatus', hJournal'⟩ :=
      ih ((incident_shift crew act c e).staffed h) hPhase
    exact ⟨hPhase', hWorkers'.trans hWorkers, hStatus'.trans hStatus, hJournal'.trans hJournal⟩

end History

/-- The deeds of a worker account for its calls, unless the worker crashed. One that was not hired
made none. -/
def Accountable (settings : WorkerSettings) (hired : Option (Worker φ ψ))
    (journal : List Happening) : Prop :=
  match hired with
  | none => calls journal = []
  | some w => w.hasCrashed = true ∨ ∃ deeds, Chronicle settings w journal deeds ∧
      w.custody.Accounted deeds ∧ (∀ d ∈ deeds, Custody.Allows settings d) ∧ w.Tidy

namespace Accountable

variable {settings : WorkerSettings} {hired : Option (Worker φ ψ)}
  {journal journal' : List Happening}

theorem of_calls (h : Accountable settings hired journal)
    (hCalls : calls journal' = calls journal) : Accountable settings hired journal' := by
  cases hired with
  | none => exact hCalls.trans h
  | some w =>
    obtain hCrashed | ⟨deeds, ⟨hRoomy, failures, pending, hUnderway, hJournal⟩, hRest⟩ := h
    · exact .inl hCrashed
    · exact .inr ⟨deeds, ⟨hRoomy, failures, pending, hUnderway, hCalls.trans hJournal⟩, hRest⟩

theorem hire {workers : List (Worker φ ψ)} {i : Nat}
    (h : Accountable settings workers[i]? journal) (now : Instant) :
    Accountable settings (workers ++ [idle settings now])[i]? journal := by
  by_cases hLess : i < workers.length
  · rwa [List.getElem?_append_left hLess]
  · have hLength := Nat.le_of_not_lt hLess
    rw [List.getElem?_eq_none_iff.mpr hLength] at h
    rw [List.getElem?_append_right hLength]
    cases i - workers.length with
    | zero =>
      have hStart : Accountable settings (some (idle settings now : Worker φ ψ)) [] :=
        .inr ⟨[], Worker.chronicle_idle settings now, .start, List.forall_mem_nil _, trivial⟩
      exact hStart.of_calls h
    | succ n => exact h

theorem step {w : Worker φ ψ} (h : Accountable settings (some w) journal)
    (hRuns : w.hasCrashed = false) (setup : Worker.Setup σ τ φ ψ)
    (hSettings : setup.settings = settings) (now : Instant) (s : Worker.Scene σ τ φ ψ)
    (hScene : s.worker = w) :
    Accountable settings (some (Worker.step setup now s).1.worker)
      (journal ++ (Worker.step setup now s).2) := by
  subst hScene hSettings
  obtain hCrashed | ⟨deeds, hChronicle, hAccounted, hAllows, hTidy⟩ := h
  · rw [hRuns] at hCrashed
    cases hCrashed
  · obtain ⟨new, hMove, hNew, -⟩ := Worker.step_chronicle setup now s hChronicle
    refine .inr ⟨deeds ++ new, hNew, hAccounted.move hMove, fun d hd => ?_,
      Worker.step_tidy setup now s hTidy⟩
    exact (List.mem_append.mp hd).elim (hAllows d) (hMove.allows d)

end Accountable

theorem not_crashed_of_not_ended {w : Worker φ ψ} (h : w.hasEnded = false) :
    w.hasCrashed = false := by
  obtain ⟨phase, buffer⟩ := w
  cases phase with
  | crashed => cases h
  | _ => rfl

section Accountability

variable {crew : Crew σ ρ τ φ ψ} {c : Course σ τ φ ψ} {i : Nat}

theorem Accountable.turn
    (h : Accountable crew.settings c.pool.workers[i]? (journalOf i c.journal)) (act : α → ρ → ρ)
    (t : Turn α τ) :
    Accountable crew.settings (c.turn crew act t).pool.workers[i]?
      (journalOf i (c.turn crew act t).journal) := by
  have hNotices : ∀ journal : List Event, (∀ e ∈ journal, e.happening.isCall = false) →
      calls (journalOf i (c.journal ++ journal)) = calls (journalOf i c.journal) := by
    intro journal hJournal
    rw [journalOf_append, calls_append, calls_journalOf_notices i hJournal, List.append_nil]
  cases t with
  | cancel | outside _ _ | store _ => exact h
  | move now m =>
    simp only [Course.turn]
    split
    case isFalse => exact h
    case isTrue hEnabled =>
      cases m with
      | begin => exact h.of_calls (hNotices _ (List.forall_mem_singleton.mpr rfl))
      | watch => exact h.of_calls (hNotices [] (List.forall_mem_nil _))
      | finish =>
        refine h.of_calls (hNotices _ fun e he => ?_)
        obtain hLost | hStopped := List.mem_append.mp he
        · obtain ⟨j, -, rfl⟩ := List.mem_map.mp hLost
          rfl
        · obtain rfl := List.mem_singleton.mp hStopped
          rfl
      | spawn =>
        simp only [Pool.apply]
        split
        · exact (h.hire now).of_calls (hNotices [] (List.forall_mem_nil _))
        · exact h.of_calls (hNotices [] (List.forall_mem_nil _))
      | work j =>
        -- A step of another worker leaves this one's part of the journal as it is.
        cases hWorker : c.pool.workers[j]? with
        | none => simp [isEnabled, hWorker] at hEnabled
        | some w =>
          simp only [isEnabled, hWorker, Option.map_some, Option.getD_some] at hEnabled
          simp only [Pool.apply, hWorker, work, journalOf_append]
          by_cases hj : j = i
          · subst hj
            rw [List.getElem?_set_self (List.getElem?_eq_some_iff.mp hWorker).1, journalOf_self]
            rw [hWorker] at h
            have hRuns := not_crashed_of_not_ended (not_ended_of_isReady hEnabled)
            exact h.step hRuns (crew.pool.worker j) rfl now (c.pool.scene w) rfl
          · rw [List.getElem?_set_ne hj, journalOf_other hj, List.append_nil]
            exact h

theorem Accountable.incident
    (h : Accountable crew.settings c.pool.workers[i]? (journalOf i c.journal)) (act : α → ρ → ρ)
    (e : Incident α τ) :
    Accountable crew.settings (c.incident crew act e).pool.workers[i]?
      (journalOf i (c.incident crew act e).journal) := by
  cases e with
  | turn t => exact h.turn act t
  | crash j =>
    simp only [Course.incident, crash]
    split
    · rename_i w hWorker
      split
      · exact h
      · by_cases hj : j = i
        · subst hj
          rw [List.getElem?_set_self (List.getElem?_eq_some_iff.mp hWorker).1]
          exact .inl rfl
        · rwa [List.getElem?_set_ne hj]
    · exact h

theorem accountable_history (crew : Crew σ ρ τ φ ψ) (act : α → ρ → ρ) (source : σ) (store : τ)
    (incidents : List (Incident α τ)) (i : Nat) :
    let c := Course.history crew act incidents (.start source store)
    Accountable crew.settings c.pool.workers[i]? (journalOf i c.journal) := by
  have hRun : ∀ c : Course σ τ φ ψ,
      Accountable crew.settings c.pool.workers[i]? (journalOf i c.journal) →
      Accountable crew.settings (c.history crew act incidents).pool.workers[i]?
        (journalOf i (c.history crew act incidents).journal) := by
    induction incidents with
    | nil => exact fun c hc => hc
    | cons e incidents ih => exact fun c hc => ih _ (hc.incident act e)
  exact hRun _ rfl

end Accountability

/-- The worker crashed, or it has written what it had and each message that it took in is settled. -/
def Finished (settings : WorkerSettings) (w : Worker φ ψ) (journal : List Happening) : Prop :=
  w.hasCrashed = true ∨ (w.phase = .stopped ∧ w.buffer.batch = [] ∧
    ∃ deeds, SettledBy settings.retry.maxAttempts journal deeds)

theorem Accountable.finished {settings : WorkerSettings} {w : Worker φ ψ}
    {journal : List Happening} (h : Accountable settings (some w) journal)
    (hEnded : w.hasEnded = true) : Finished settings w journal := by
  obtain hCrashed | ⟨deeds, hChronicle, hAccounted, hAllows, hTidy⟩ := h
  · exact .inl hCrashed
  cases hPhase : w.phase with
  | crashed => exact .inl (by rw [Worker.hasCrashed, hPhase])
  | stopped =>
    have hEmpty : w.buffer.batch = [] := by simpa [Worker.Tidy, hPhase] using hTidy
    refine .inr ⟨hPhase, hEmpty, deeds, hAccounted.settledBy ?_ ?_ hAllows (hChronicle.calls_eq ?_)⟩
    · simp [Worker.custody, hPhase, hEmpty]
    · simp [Worker.custody, hPhase]
    · simp [hPhase]
  | _ => simp [Worker.hasEnded, hPhase] at hEnded

theorem ready_status (s : PoolStatus) :
    (Health.ready s).status = if s.isReady then 200 else 503 := by
  obtain ⟨expected, live, shuttingDown⟩ := s
  cases shuttingDown with
  | true => simp [Health.ready, PoolStatus.isReady, Health.json]
  | false =>
    simp only [Health.ready, Bool.false_eq_true, if_false]
    split <;> rfl

def readiness (p : Pool σ τ φ ψ) : Nat := (Health.respond p.status p.counters "GET" "/ready").status

theorem readiness_eq (p : Pool σ τ φ ψ) :
    p.readiness = if p.status.isReady then 200 else 503 := by
  have hPage : Health.Page.ofPath (Health.pathOf "/ready") = some .ready := by decide +kernel
  simp only [readiness, Health.respond, hPage, if_true, Health.Page.response, ready_status]

structure Truthful (size : Nat) (p : Pool σ τ φ ψ) : Prop where
  live : p.status.live = p.running
  bounded : p.status.live ≤ p.status.expected
  expected : p.phase ≠ .idle → p.status.expected = size
  ready : p.status.isReady = true ↔ p.AllRun size
  answer : p.readiness = if p.status.isReady then 200 else 503

theorem Staffed.truthful {size : Nat} {p : Pool σ τ φ ψ} (h : Staffed size p) :
    Truthful size p := by
  refine ⟨h.live, ?_, fun hBegun => by rw [h.expected, if_neg hBegun], h.isReady_iff,
    p.readiness_eq⟩
  have hLe : p.running ≤ p.workers.length := List.countP_le_length
  rw [h.live, h.expected]
  split
  · rename_i hIdle
    rw [h.fresh hIdle] at hLe
    exact hLe
  · exact Nat.le_trans hLe h.fits

/-- Every worker of a pool has ended, and the pool says so. -/
structure Over (crew : Crew σ ρ τ φ ψ) (c : Course σ τ φ ψ) : Prop where
  size : c.pool.workers.length = crew.size
  finished : ∀ (i : Nat) (w : Worker φ ψ), c.pool.workers[i]? = some w →
    Finished crew.settings w (journalOf i c.journal)
  live : c.pool.status.live = 0
  flagged : c.pool.status.shuttingDown = true
  answer : c.pool.readiness = 503

theorem Staffed.over {crew : Crew σ ρ τ φ ψ} {c : Course σ τ φ ψ} (h : Staffed crew.size c.pool)
    (hAccounts : ∀ i, Accountable crew.settings c.pool.workers[i]? (journalOf i c.journal))
    (hOver : c.pool.phase = .ended) : Over crew c := by
  obtain ⟨hEnded, hFlag⟩ := h.ended hOver
  have hAll : ∀ w ∈ c.pool.workers, w.hasEnded = true := List.all_eq_true.mp hEnded
  refine ⟨h.complete (.inr hOver), fun i w hWorker => ?_, ?_, hFlag, ?_⟩
  · have hAccount := hAccounts i
    rw [hWorker] at hAccount
    exact hAccount.finished (hAll w (List.mem_of_getElem? hWorker))
  · rw [h.live, running, List.countP_eq_zero]
    exact fun w hw => by simp [hAll w hw]
  · rw [readiness_eq, IsSpoiled.not_ready (.inl hFlag) h]
    rfl

/-- At every moment, whatever the sources and the store answer and wherever workers crash, the status
of a pool says how its workers are. A pool with a worker that ended, with an end in sight or with its
readiness lost does not become ready again, and when it has ended all of its workers have, for good.
The three values that make up readiness may be read at successive moments: if they say that the
pool is ready, it was. -/
theorem status_tells_truth (crew : Crew σ ρ τ φ ψ) (act : α → ρ → ρ) (source : σ) (store : τ)
    (incidents : List (Incident α τ)) :
    let c := Course.history crew act incidents (.start source store)
    Truthful crew.size c.pool ∧
      (∀ more last : List (Incident α τ),
        let c' := c.history crew act more
        let c'' := c'.history crew act last
        (c.pool.IsSpoiled → c'.pool.status.isReady = false) ∧
        (c.pool.status.isReady = true → c'.pool.status.isReady = false →
          c''.pool.status.isReady = false) ∧
        (PoolStatus.isReady ⟨c.pool.status.expected, c'.pool.status.live,
          c''.pool.status.shuttingDown⟩ = true → c'.pool.status.isReady = true)) ∧
      (c.pool.phase = .ended → ∀ more : List (Incident α τ),
        (c.history crew act more).journal = c.journal ∧ Over crew (c.history crew act more)) := by
  intro c
  have hStaffed : Staffed crew.size c.pool := staffed_history crew act source store incidents
  have hLater : ∀ {c : Course σ τ φ ψ}, Staffed crew.size c.pool →
      ∀ more : List (Incident α τ), Staffed crew.size (c.history crew act more).pool :=
    fun h more => history_keeps crew act Shift.staffed h more
  have hSpoiled : ∀ {c : Course σ τ φ ψ}, Staffed crew.size c.pool → c.pool.IsSpoiled →
      ∀ more : List (Incident α τ), (c.history crew act more).pool.status.isReady = false :=
    fun h hp more => (history_keeps crew act Shift.isSpoiled hp more).not_ready (hLater h more)
  refine ⟨hStaffed.truthful, fun more last => ⟨fun hp => hSpoiled hStaffed hp more, ?_, ?_⟩, ?_⟩
  · intro hReady hLost
    have hLength : c.pool.workers.length ≤ (c.history crew act more).pool.workers.length :=
      history_keeps crew act (P := fun p => c.pool.workers.length ≤ p.workers.length)
        (fun h hLe => Nat.le_trans hLe h.length_le) (Nat.le_refl _) more
    exact hSpoiled (hLater hStaffed more)
      (hStaffed.isSpoiled_of_lost (hLater hStaffed more) hReady hLength hLost) last
  · intro hRead
    simp only [PoolStatus.isReady, Bool.and_eq_true, decide_eq_true_eq, Bool.not_eq_true']
      at hRead ⊢
    obtain ⟨⟨hSome, hLive⟩, hClear⟩ := hRead
    -- The number expected does not change once there is one, and the flag is never taken back.
    have hBegun : c.pool.phase ≠ .idle := by
      intro hIdle
      rw [hStaffed.expected, if_pos hIdle] at hSome
      exact Nat.lt_irrefl 0 hSome
    have hBegun' : (c.history crew act more).pool.phase ≠ .idle :=
      history_keeps crew act Shift.begun hBegun more
    have hSame : (c.history crew act more).pool.status.expected = c.pool.status.expected := by
      rw [(hLater hStaffed more).expected, hStaffed.expected, if_neg hBegun, if_neg hBegun']
    refine ⟨⟨hSame ▸ hSome, hLive.trans hSame.symm⟩, Bool.eq_false_iff.mpr fun hFlag => ?_⟩
    exact Bool.eq_false_iff.mp hClear (history_keeps crew act
      (P := fun p => p.status.shuttingDown = true) Shift.flagged hFlag last)
  · intro hOver more
    obtain ⟨hPhase, -, -, hJournal⟩ := history_ended crew act hStaffed hOver more
    refine ⟨hJournal, (hLater hStaffed more).over (fun i => ?_) hPhase⟩
    have hAccounts := accountable_history crew act source store (incidents ++ more) i
    rwa [Course.history_append] at hAccounts

def pairOfWorkers : Crew (Nat → Queue) Queue PlannedStore Waiting (Option StoreError) :=
  ⟨{}, 2, fun _ => Queue.source, ownPart, PlannedStore.store⟩

/-- A worker takes in an event before the other one crashes, and writes it when it is cancelled. -/
def untilCrash : List (Incident (List UInt8) PlannedStore) :=
  [.turn (.outside 0 [123, 125]), .turn (.move 0 .begin)]
    ++ List.replicate 3 (.turn (.move 0 .spawn)) ++ List.replicate 4 (.turn (.move 0 (.work 0)))

def afterCrash : List (Incident (List UInt8) PlannedStore) :=
  [.crash 1, .turn .cancel, .turn (.move 0 .watch)]
    ++ List.replicate 5 (.turn (.move 0 (.work 0))) ++ [.turn (.move 0 .finish)]

def pairCourse (incidents : List (Incident (List UInt8) PlannedStore)) :
    Course (Nat → Queue) PlannedStore Waiting (Option StoreError) :=
  Course.history pairOfWorkers (fun m q => q.publish m) incidents (.start (fun _ => {}) {})

theorem pair_over_after_crash :
    (pairCourse untilCrash).pool.AllRun 2 ∧
      (pairCourse (untilCrash ++ afterCrash)).pool.workers.map Worker.hasCrashed = [false, true] ∧
      (pairCourse (untilCrash ++ afterCrash)).pool.phase = .ended ∧
      Over pairOfWorkers (pairCourse (untilCrash ++ afterCrash)) := by
  have hReady : (pairCourse untilCrash).pool.status.isReady = true := by decide +kernel
  have hPhase : (pairCourse (untilCrash ++ afterCrash)).pool.phase = .ended := by decide +kernel
  obtain ⟨hTruthful, -⟩ := status_tells_truth pairOfWorkers (fun m q => q.publish m) (fun _ => {}) {}
    untilCrash
  obtain ⟨-, -, hEnded⟩ := status_tells_truth pairOfWorkers (fun m q => q.publish m) (fun _ => {}) {}
    (untilCrash ++ afterCrash)
  have hOver := (hEnded hPhase []).2
  rw [Course.history_nil] at hOver
  exact ⟨hTruthful.ready.mp hReady, by decide +kernel, hPhase, hOver⟩

end EventIngest.Pool
