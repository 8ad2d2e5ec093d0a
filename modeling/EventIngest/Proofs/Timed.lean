import EventIngest.Proofs.Course
/-!
# A worker in time

The course of a worker on a clock. A move takes no time: as long as the worker can make one the clock
stands still, and it never passes the instant that the worker waits for. Whatever is kept by the
moves, by the passing of time and by the changes that others make is kept along every such course,
and every timed run of a worker is one.
-/
namespace EventIngest

/-- What moves keep, and the passing of time up to the next instant that is waited for, is kept by a
run. Time never goes back if nothing that is waited for is overdue. -/
theorem Run.advance_keeps {State Event : Type} {A : Activity State Event}
    {P : Run State Event → Prop}
    (hMove : ∀ r state events, A.move? r.now r.state = some (state, events) → P r →
      P (r.record state events))
    (hWait : ∀ r t, A.move? r.now r.state = none → r.now ≤ t →
      (∀ due, A.due? r.state = some due → t ≤ due) → P r → P { r with now := t })
    (hDue : ∀ (r : Run State Event) due, A.move? r.now r.state = none →
      A.due? r.state = some due → r.now ≤ due)
    (limit : Option Instant) (fuel : Nat) {r : Run State Event}
    (hLimit : ∀ last, limit = some last → r.now ≤ last) (h : P r) :
    P (r.advance A limit fuel) := by
  induction fuel generalizing r with
  | zero => exact h
  | succ fuel ih =>
    have hPass : ∀ due, A.move? r.now r.state = none → A.due? r.state = some due →
        (∀ last, limit = some last → due ≤ last) →
        P (({ r with now := max r.now due } : Run State Event).advance A limit fuel) := by
      intro due hNone hNext hLast
      have hLater := hDue r due hNone hNext
      rw [Nat.max_eq_right hLater]
      refine ih hLast (hWait r due hNone hLater (fun due' hDue' => ?_) h)
      rw [hNext] at hDue'
      exact Nat.le_of_eq (Option.some.inj hDue')
    have hStay : ∀ last, A.move? r.now r.state = none → limit = some last →
        (∀ due, A.due? r.state = some due → last ≤ due) →
        P { r with now := max r.now last } := by
      intro last hNone hLast hBefore
      rw [Nat.max_eq_right (hLimit last hLast)]
      exact hWait r last hNone (hLimit last hLast) hBefore h
    cases hNone : A.move? r.now r.state with
    | some next =>
      simp only [Run.advance, hNone]
      exact ih hLimit (hMove r next.1 next.2 hNone h)
    | none =>
      simp only [Run.advance, hNone]
      cases hNext : A.due? r.state with
      | none =>
        cases limit with
        | none => exact h
        | some last =>
          refine hStay last hNone rfl fun due hDue' => ?_
          rw [hNext] at hDue'
          cases hDue'
      | some due =>
        cases limit with
        | none => exact hPass due hNone hNext fun _ hLast => by cases hLast
        | some last =>
          simp only
          split
          · rename_i hLess
            refine hPass due hNone hNext fun last' hLast => ?_
            rw [← Option.some.inj hLast]
            exact Nat.le_of_lt hLess
          · rename_i hLess
            refine hStay last hNone rfl fun due' hDue' => ?_
            rw [hNext] at hDue'
            rw [← Option.some.inj hDue']
            exact Nat.le_of_not_lt hLess

namespace Worker

variable {α σ τ φ ψ : Type}

/-- A worker that waits for an instant is ready when it has come. -/
theorem lt_due {w : Worker φ ψ} {now : Instant} {cancelled : Bool}
    (hReady : w.isReady now cancelled = false) {due : Instant} (hDue : w.due? = some due) :
    now < due := by
  simp only [isReady] at hReady
  simp only [due?] at hDue
  split at hDue
  · cases hDue
    simp_all
  · cases hDue
    simp_all
  · cases hDue
    simp_all
  · cases hDue

/-- A worker with its surroundings and the time, and the journal of all that it did. -/
structure Timed (σ τ φ ψ : Type) where
  now : Instant := 0
  scene : Scene σ τ φ ψ
  journal : List (Instant × Happening) := []

namespace Timed

inductive Turn (α τ : Type) where
  /-- The worker moves, or if it cannot, time passes until it can. -/
  | go
  | wait (t : Instant)
  | cancel
  /-- The source changes from outside. -/
  | outside (a : α)
  | store (t : τ)
  | counters (c : Counters)

def start (settings : WorkerSettings) (source : σ) (store : τ) : Timed σ τ φ ψ where
  scene := .start settings source store

def isReady (c : Timed σ τ φ ψ) : Bool := c.scene.worker.isReady c.now c.scene.cancelled

def moved (setup : Setup σ τ φ ψ) (c : Timed σ τ φ ψ) : Timed σ τ φ ψ where
  now := c.now
  scene := (step setup c.now c.scene).1
  journal := c.journal ++ (step setup c.now c.scene).2.map (c.now, ·)

theorem moved_journal (setup : Setup σ τ φ ψ) (c : Timed σ τ φ ψ) :
    (c.moved setup).journal.map Prod.snd
      = c.journal.map Prod.snd ++ (step setup c.now c.scene).2 := by
  simp [moved, Function.comp_def]

/-- The worker cannot move before this instant. -/
def mayWait (c : Timed σ τ φ ψ) (t : Instant) : Bool :=
  !c.isReady && decide (c.now ≤ t) && c.scene.worker.due?.all (t ≤ ·)

def turn (setup : Setup σ τ φ ψ) (act : α → σ → σ) (c : Timed σ τ φ ψ) :
    Turn α τ → Timed σ τ φ ψ
  | .go =>
    if c.isReady then c.moved setup
    else { c with now := c.scene.worker.due?.getD c.now }
  | .wait t => if c.mayWait t then { c with now := t } else c
  | .cancel => { c with scene := { c.scene with cancelled := true } }
  | .outside a => { c with scene := { c.scene with source := act a c.scene.source } }
  | .store store => { c with scene := { c.scene with store } }
  | .counters counters => { c with scene := { c.scene with counters } }

def run (setup : Setup σ τ φ ψ) (act : α → σ → σ) (turns : List (Turn α τ))
    (c : Timed σ τ φ ψ) : Timed σ τ φ ψ := turns.foldl (turn setup act) c

theorem run_append (setup : Setup σ τ φ ψ) (act : α → σ → σ) (before after : List (Turn α τ))
    (c : Timed σ τ φ ψ) :
    run setup act (before ++ after) c = run setup act after (run setup act before c) :=
  List.foldl_append

/-- What others make of the surroundings. -/
def disturbed (c : Timed σ τ φ ψ) (source : σ) (store : τ) (counters : Counters) :
    Timed σ τ φ ψ :=
  { c with scene := { c.scene with source, store, counters } }

theorem mayWait_iff {c : Timed σ τ φ ψ} {t : Instant} :
    c.mayWait t = true ↔
      c.isReady = false ∧ c.now ≤ t ∧ ∀ due, c.scene.worker.due? = some due → t ≤ due := by
  cases hDue : c.scene.worker.due? <;> simp [mayWait, hDue, and_assoc]

theorem lt_due {c : Timed σ τ φ ψ} (hReady : c.isReady = false) {due : Instant}
    (hDue : c.scene.worker.due? = some due) : c.now < due := Worker.lt_due hReady hDue

/-- All that a turn can do. -/
theorem turn_cases (setup : Setup σ τ φ ψ) (act : α → σ → σ) (c : Timed σ τ φ ψ)
    (t : Turn α τ) :
    (c.isReady = true ∧ c.turn setup act t = c.moved setup) ∨
    (∃ later, c.mayWait later = true ∧ c.turn setup act t = { c with now := later }) ∨
    c.turn setup act t = { c with scene := { c.scene with cancelled := true } } ∨
    ∃ source store counters, c.turn setup act t = c.disturbed source store counters := by
  cases t with
  | go =>
    simp only [turn]
    cases hReady : c.isReady with
    | true => exact .inl ⟨rfl, rfl⟩
    | false =>
      cases hDue : c.scene.worker.due? with
      | none => exact .inr (.inr (.inr ⟨_, _, _, rfl⟩))
      | some due =>
        refine .inr (.inl ⟨due, mayWait_iff.mpr ⟨hReady, ?_, ?_⟩, rfl⟩)
        · exact Nat.le_of_lt (lt_due hReady hDue)
        · intro due' hDue'
          rw [hDue] at hDue'
          exact Nat.le_of_eq (Option.some.inj hDue')
  | wait later =>
    simp only [turn]
    split
    · rename_i hWait
      exact .inr (.inl ⟨later, hWait, rfl⟩)
    · exact .inr (.inr (.inr ⟨_, _, _, rfl⟩))
  | cancel => exact .inr (.inr (.inl rfl))
  | outside _ | store _ | counters _ => exact .inr (.inr (.inr ⟨_, _, _, rfl⟩))

section Keeping

variable {setup : Setup σ τ φ ψ} {P : Timed σ τ φ ψ → Prop}
  (hMove : ∀ c, P c → c.isReady = true → P (c.moved setup))
  (hWait : ∀ c t, P c → c.mayWait t = true → P { c with now := t })
  (hCancel : ∀ c, P c → P { c with scene := { c.scene with cancelled := true } })
  (hOthers : ∀ c source store counters, P c → P (c.disturbed source store counters))

include hMove hWait hCancel hOthers

theorem turn_keeps (act : α → σ → σ) {c : Timed σ τ φ ψ} (h : P c) (t : Turn α τ) :
    P (c.turn setup act t) := by
  obtain ⟨hReady, hTurn⟩ | ⟨later, hLater, hTurn⟩ | hTurn | ⟨_, _, _, hTurn⟩ :=
    turn_cases setup act c t
  · exact hTurn ▸ hMove c h hReady
  · exact hTurn ▸ hWait c later h hLater
  · exact hTurn ▸ hCancel c h
  · exact hTurn ▸ hOthers c _ _ _ h

theorem run_keeps (act : α → σ → σ) {c : Timed σ τ φ ψ} (h : P c) (turns : List (Turn α τ)) :
    P (run setup act turns c) := by
  induction turns generalizing c with
  | nil => exact h
  | cons t turns ih => exact ih (turn_keeps hMove hWait hCancel hOthers act h t)

end Keeping

def untimed (c : Timed σ τ φ ψ) : Course σ τ φ ψ := ⟨c.scene, c.journal.map Prod.snd⟩

theorem untimed_moved (setup : Setup σ τ φ ψ) (act : α → σ → σ) {c : Timed σ τ φ ψ}
    (hReady : c.isReady = true) :
    (c.moved setup).untimed = c.untimed.turn setup act (.work c.now : Worker.Turn α τ) := by
  have hStep : c.untimed.scene.worker.isReady c.now c.untimed.scene.cancelled = true := hReady
  simp only [Course.turn, hStep, if_true]
  simp only [untimed, moved_journal]
  rfl

/-- Without the clock it is a course. -/
theorem exists_run_eq_untimed (setup : Setup σ τ φ ψ) (act : α → σ → σ) (turns : List (Turn α τ))
    (c : Timed σ τ φ ψ) :
    ∃ moves : List (Worker.Turn α τ),
      (run setup act turns c).untimed = c.untimed.run setup act moves := by
  induction turns generalizing c with
  | nil => exact ⟨[], rfl⟩
  | cons t turns ih =>
    have hTurn : ∃ first : List (Worker.Turn α τ),
        (c.turn setup act t).untimed = c.untimed.run setup act first := by
      cases t with
      | go =>
        simp only [turn]
        split
        · rename_i hReady
          exact ⟨[.work c.now], untimed_moved setup act hReady⟩
        · exact ⟨[], rfl⟩
      | wait later =>
        simp only [turn]
        split <;> exact ⟨[], rfl⟩
      | cancel => exact ⟨[.cancel], rfl⟩
      | outside a => exact ⟨[.outside a], rfl⟩
      | store store => exact ⟨[.store store], rfl⟩
      | counters counters => exact ⟨[.counters counters], rfl⟩
    obtain ⟨first, hFirst⟩ := hTurn
    obtain ⟨rest, hRest⟩ := ih (c.turn setup act t)
    refine ⟨first ++ rest, hRest.trans ?_⟩
    rw [hFirst, Course.run_append]

def ofRun (r : Run (Scene σ τ φ ψ) Happening) : Timed σ τ φ ψ := ⟨r.now, r.state, r.journal.toList⟩

/-- A timed run of a worker, up to an instant or to its end, is such a course. -/
theorem exists_run_eq_ofRun_advance (setup : Setup σ τ φ ψ) (act : α → σ → σ)
    {r : Run (Scene σ τ φ ψ) Happening} (limit : Option Instant) (fuel : Nat)
    (hLimit : ∀ last, limit = some last → r.now ≤ last) :
    ∃ turns : List (Turn α τ),
      ofRun (r.advance (activity setup) limit fuel) = (ofRun r).run setup act turns := by
  have hReady : ∀ r : Run (Scene σ τ φ ψ) Happening,
      (activity setup).move? r.now r.state = none → (ofRun r).isReady = false := by
    intro r hNone
    simpa [activity, isReady, ofRun] using hNone
  have hStep : ∀ (turns : List (Turn α τ)) (t : Turn α τ),
      run setup act (turns ++ [t]) (ofRun r) = (run setup act turns (ofRun r)).turn setup act t :=
    fun turns t => run_append setup act turns [t] (ofRun r)
  refine Run.advance_keeps (A := activity setup)
    (P := fun r' => ∃ turns : List (Turn α τ), ofRun r' = (ofRun r).run setup act turns)
    ?_ ?_ ?_ limit fuel hLimit ⟨[], rfl⟩
  · rintro r' state events hMove ⟨turns, hTurns⟩
    refine ⟨turns ++ [.go], ?_⟩
    simp only [activity, Option.ite_none_right_eq_some, Option.some.injEq] at hMove
    have hGo : (ofRun r').isReady = true := hMove.1
    rw [hStep, ← hTurns, turn, if_pos hGo]
    simp [moved, ofRun, Run.record, hMove.2]
  · rintro r' t hNone hLater hBefore ⟨turns, hTurns⟩
    refine ⟨turns ++ [.wait t], ?_⟩
    have hWait : (ofRun r').mayWait t = true := mayWait_iff.mpr ⟨hReady r' hNone, hLater, hBefore⟩
    rw [hStep, ← hTurns, turn, if_pos hWait]
    rfl
  · intro r' due hNone hDue
    exact Nat.le_of_lt (lt_due (hReady r' hNone) hDue)

end Timed

end Worker

end EventIngest
