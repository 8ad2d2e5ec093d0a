import EventIngest.Proofs.PoolCourse
import EventIngest.Proofs.Timed
/-!
# A pool in time

The course of a pool on a clock. The clock stands still as long as the pool or one of its workers can
move, and it never passes the next instant that a worker waits for. The order of the moves is open:
the runs of a pool, which make the first move that is enabled, are such courses.
-/
namespace EventIngest.Pool

variable {α σ ρ τ φ ψ : Type}

structure Timed (σ τ φ ψ : Type) where
  now : Instant := 0
  pool : Pool σ τ φ ψ
  journal : List (Instant × Event) := []

theorem isEnabled_of_next? {now : Instant} {p : Pool σ τ φ ψ} {m : Move}
    (h : p.next? now = some m) : p.isEnabled now m = true := List.find?_some h

/-- If there is no next move then none is enabled. -/
theorem next?_eq_none {now : Instant} {p : Pool σ τ φ ψ} :
    p.next? now = none ↔ ∀ m, p.isEnabled now m = false := by
  refine ⟨fun h m => ?_, fun h => List.find?_eq_none.mpr fun m _ => by simp [h m]⟩
  have hNone : ∀ m ∈ _, ¬ p.isEnabled now m = true := List.find?_eq_none.mp h
  have hListed : p.isEnabled now m = true → False := by
    intro hEnabled
    refine hNone m ?_ hEnabled
    cases m with
    | begin | spawn | watch | finish => simp
    | work i =>
      have hLess : i < p.workers.length := by
        cases hWorker : p.workers[i]? with
        | none => simp [isEnabled, hWorker] at hEnabled
        | some w => exact (List.getElem?_eq_some_iff.mp hWorker).1
      simp [hLess]
  exact Bool.eq_false_iff.mpr hListed

/-- The next instant that is waited for is that of the first worker. -/
theorem due?_eq_some {setup : Setup σ τ φ ψ} {p : Pool σ τ φ ψ} {due : Instant}
    (h : (activity setup).due? p = some due) : ∃ w ∈ p.workers, w.due? = some due := by
  obtain ⟨hMem, -⟩ := List.min?_eq_some_iff.mp h
  exact List.mem_filterMap.mp hMem

theorem le_due_of_le_first {setup : Setup σ τ φ ψ} {p : Pool σ τ φ ψ} {t : Instant}
    (h : ∀ due, (activity setup).due? p = some due → t ≤ due) :
    ∀ w ∈ p.workers, ∀ due, w.due? = some due → t ≤ due := by
  intro w hw due hDue
  have hMem : due ∈ p.workers.filterMap Worker.due? := List.mem_filterMap.mpr ⟨w, hw, hDue⟩
  cases hFirst : (p.workers.filterMap Worker.due?).min? with
  | none => simp [List.min?_eq_none_iff.mp hFirst] at hMem
  | some first =>
    obtain ⟨-, hLeast⟩ := List.min?_eq_some_iff.mp hFirst
    exact Nat.le_trans (h first hFirst) (hLeast due hMem)

/-- A worker of a pool in which no move is enabled has none to make. -/
theorem not_ready {p : Pool σ τ φ ψ} {now : Instant} (h : ∀ m, p.isEnabled now m = false)
    {w : Worker φ ψ} (hw : w ∈ p.workers) : w.isReady now p.cancelled = false := by
  obtain ⟨i, hi⟩ := List.mem_iff_getElem?.mp hw
  simpa [isEnabled, hi] using h (.work i)

namespace Timed

inductive Turn (α : Type) where
  | move (m : Move)
  | wait (t : Instant)
  | cancel
  /-- The source of a worker changes from outside. -/
  | outside (i : Nat) (a : α)

def start (source : σ) (store : τ) : Timed σ τ φ ψ where
  pool := .start source store

def moved (setup : Setup σ τ φ ψ) (c : Timed σ τ φ ψ) (m : Move) : Timed σ τ φ ψ where
  now := c.now
  pool := (c.pool.apply setup c.now m).1
  journal := c.journal ++ (c.pool.apply setup c.now m).2.map (c.now, ·)

def mayWait (c : Timed σ τ φ ψ) (t : Instant) : Bool :=
  (c.pool.next? c.now).isNone && decide (c.now ≤ t) &&
    c.pool.workers.all fun w => w.due?.all (t ≤ ·)

def turn (crew : Crew σ ρ τ φ ψ) (act : α → ρ → ρ) (c : Timed σ τ φ ψ) :
    Turn α → Timed σ τ φ ψ
  | .move m => if c.pool.isEnabled c.now m then c.moved crew.pool m else c
  | .wait t => if c.mayWait t then { c with now := t } else c
  | .cancel => { c with pool := { c.pool with cancelled := true } }
  | .outside i a =>
    { c with pool := { c.pool with
        source := (crew.part i).set (act a ((crew.part i).get c.pool.source)) c.pool.source } }

def run (crew : Crew σ ρ τ φ ψ) (act : α → ρ → ρ) (turns : List (Turn α)) (c : Timed σ τ φ ψ) :
    Timed σ τ φ ψ := turns.foldl (turn crew act) c

theorem run_append (crew : Crew σ ρ τ φ ψ) (act : α → ρ → ρ) (before after : List (Turn α))
    (c : Timed σ τ φ ψ) :
    run crew act (before ++ after) c = run crew act after (run crew act before c) :=
  List.foldl_append

theorem mayWait_iff {c : Timed σ τ φ ψ} {t : Instant} :
    c.mayWait t = true ↔ (∀ m, c.pool.isEnabled c.now m = false) ∧ c.now ≤ t ∧
      ∀ w ∈ c.pool.workers, ∀ due, w.due? = some due → t ≤ due := by
  have hDues : (c.pool.workers.all fun w => w.due?.all (t ≤ ·)) = true ↔
      ∀ w ∈ c.pool.workers, ∀ due, w.due? = some due → t ≤ due := by
    rw [List.all_eq_true]
    refine forall₂_congr fun w _ => ?_
    cases w.due? <;> simp
  simp only [mayWait, Bool.and_eq_true, Option.isNone_iff_eq_none, decide_eq_true_eq, hDues,
    next?_eq_none, and_assoc]

section Journal

variable (crew : Crew σ ρ τ φ ψ) (act : α → ρ → ρ)

theorem turn_journal (c : Timed σ τ φ ψ) (t : Turn α) :
    ∃ new, (c.turn crew act t).journal = c.journal ++ new := by
  cases t with
  | move m =>
    simp only [turn]
    split
    · exact ⟨_, rfl⟩
    · exact ⟨[], (List.append_nil _).symm⟩
  | wait later =>
    simp only [turn]
    split <;> exact ⟨[], (List.append_nil _).symm⟩
  | cancel | outside _ _ => exact ⟨[], (List.append_nil _).symm⟩

/-- Nothing is taken back that was written into the journal. -/
theorem run_journal (turns : List (Turn α)) (c : Timed σ τ φ ψ) :
    ∃ new, (run crew act turns c).journal = c.journal ++ new := by
  induction turns generalizing c with
  | nil => exact ⟨[], (List.append_nil _).symm⟩
  | cons t turns ih =>
    obtain ⟨first, hFirst⟩ := turn_journal crew act c t
    obtain ⟨rest, hRest⟩ := ih (c.turn crew act t)
    exact ⟨first ++ rest, by rw [← List.append_assoc, ← hFirst, ← hRest]; rfl⟩

end Journal

def untimed (c : Timed σ τ φ ψ) : Course σ τ φ ψ := ⟨c.pool, c.journal.map Prod.snd⟩

theorem untimed_moved (crew : Crew σ ρ τ φ ψ) (act : α → ρ → ρ) {c : Timed σ τ φ ψ} {m : Move}
    (hEnabled : c.pool.isEnabled c.now m = true) :
    (c.moved crew.pool m).untimed
      = c.untimed.turn crew act (.move c.now m : Pool.Turn α τ) := by
  have hPool : c.untimed.pool.isEnabled c.now m = true := hEnabled
  simp only [Course.turn, hPool, if_true]
  simp [untimed, moved, Function.comp_def]

/-- Without the clock it is a course. -/
theorem exists_turn_eq_untimed (crew : Crew σ ρ τ φ ψ) (act : α → ρ → ρ) (t : Turn α)
    (c : Timed σ τ φ ψ) :
    ∃ moves : List (Pool.Turn α τ),
      (c.turn crew act t).untimed = c.untimed.run crew act moves := by
  cases t with
  | move m =>
    simp only [turn]
    split
    · rename_i hEnabled
      exact ⟨[.move c.now m], untimed_moved crew act hEnabled⟩
    · exact ⟨[], rfl⟩
  | wait later =>
    simp only [turn]
    split <;> exact ⟨[], rfl⟩
  | cancel => exact ⟨[.cancel], rfl⟩
  | outside i a => exact ⟨[.outside i a], rfl⟩

def ofRun (r : Run (Pool σ τ φ ψ) Event) : Timed σ τ φ ψ := ⟨r.now, r.state, r.journal.toList⟩

/-- A timed run of a pool, up to an instant or to its end, is such a course. -/
theorem exists_run_eq_ofRun_advance (crew : Crew σ ρ τ φ ψ) (act : α → ρ → ρ)
    {r : Run (Pool σ τ φ ψ) Event} (limit : Option Instant) (fuel : Nat)
    (hLimit : ∀ last, limit = some last → r.now ≤ last) :
    ∃ turns : List (Turn α),
      ofRun (r.advance (activity crew.pool) limit fuel) = (ofRun r).run crew act turns := by
  have hNext : ∀ r : Run (Pool σ τ φ ψ) Event,
      (activity crew.pool).move? r.now r.state = none →
        ∀ m, r.state.isEnabled r.now m = false := by
    intro r hNone
    refine next?_eq_none.mp ?_
    simpa [activity] using hNone
  have hStep : ∀ (turns : List (Turn α)) (t : Turn α),
      run crew act (turns ++ [t]) (ofRun r) = (run crew act turns (ofRun r)).turn crew act t :=
    fun turns t => run_append crew act turns [t] (ofRun r)
  refine Run.advance_keeps (A := activity crew.pool)
    (P := fun r' => ∃ turns : List (Turn α), ofRun r' = (ofRun r).run crew act turns)
    ?_ ?_ ?_ limit fuel hLimit ⟨[], rfl⟩
  · rintro r' state events hMove ⟨turns, hTurns⟩
    obtain ⟨m, hFirst, hApply⟩ := Option.map_eq_some_iff.mp hMove
    have hEnabled : (ofRun r').pool.isEnabled (ofRun r').now m = true := isEnabled_of_next? hFirst
    refine ⟨turns ++ [.move m], ?_⟩
    rw [hStep, ← hTurns, turn, if_pos hEnabled]
    simp [moved, ofRun, Run.record, hApply]
  · rintro r' t hNone hLater hBefore ⟨turns, hTurns⟩
    have hWait : (ofRun r').mayWait t = true :=
      mayWait_iff.mpr ⟨hNext r' hNone, hLater, le_due_of_le_first hBefore⟩
    refine ⟨turns ++ [.wait t], ?_⟩
    rw [hStep, ← hTurns, turn, if_pos hWait]
    rfl
  · intro r' due hNone hDue
    obtain ⟨w, hw, hWaits⟩ := due?_eq_some hDue
    exact Nat.le_of_lt (Worker.lt_due (not_ready (hNext r' hNone) hw) hWaits)

end Timed

end EventIngest.Pool
