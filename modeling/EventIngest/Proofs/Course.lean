import EventIngest.Proofs.Custody
import EventIngest.Worker.Basic
/-!
# Courses of a worker

A course is what a worker goes through in any order of events: its own moves at any instants, a
cancellation, and changes that others make to its source, to the store and to the counters. No clock
orders the moves, so every timed run is a course. What every move of custody keeps holds along every
course.
-/
namespace EventIngest.Worker

open Journal

variable {α σ τ φ ψ : Type}

inductive Turn (α τ : Type) where
  | work (now : Instant)
  | cancel
  /-- The source changes from outside. -/
  | outside (a : α)
  | store (t : τ)
  | counters (c : Counters)

/-- A worker with its surroundings, and the journal of all that it did. -/
structure Course (σ τ φ ψ : Type) where
  scene : Scene σ τ φ ψ
  journal : List Happening := []

namespace Course

def start (settings : WorkerSettings) (source : σ) (store : τ) : Course σ τ φ ψ where
  scene := .start settings source store

def turn (setup : Setup σ τ φ ψ) (act : α → σ → σ) (c : Course σ τ φ ψ) :
    Turn α τ → Course σ τ φ ψ
  | .work now =>
    if c.scene.worker.isReady now c.scene.cancelled then
      ⟨(step setup now c.scene).1, c.journal ++ (step setup now c.scene).2⟩
    else c
  | .cancel => { c with scene := { c.scene with cancelled := true } }
  | .outside a => { c with scene := { c.scene with source := act a c.scene.source } }
  | .store store => { c with scene := { c.scene with store } }
  | .counters counters => { c with scene := { c.scene with counters } }

def run (setup : Setup σ τ φ ψ) (act : α → σ → σ) (turns : List (Turn α τ))
    (c : Course σ τ φ ψ) : Course σ τ φ ψ := turns.foldl (turn setup act) c

theorem run_append (setup : Setup σ τ φ ψ) (act : α → σ → σ) (before after : List (Turn α τ))
    (c : Course σ τ φ ψ) :
    run setup act (before ++ after) c = run setup act after (run setup act before c) :=
  List.foldl_append

/-- A turn is a move of custody or a change of the source by others. -/
theorem turn_move (setup : Setup σ τ φ ψ) (act : α → σ → σ) {c : Course σ τ φ ψ}
    {deeds : List Deed} (h : Chronicle setup.settings c.scene.worker c.journal deeds)
    (t : Turn α τ) :
    let c' := c.turn setup act t
    ∃ new, Chronicle setup.settings c'.scene.worker c'.journal (deeds ++ new) ∧
      (Custody.Move setup.intake setup.settings c.scene.worker.custody c.scene.source new
          c'.scene.worker.custody c'.scene.source ∨
        new = [] ∧ c'.scene.worker = c.scene.worker ∧
          ∃ a, t = .outside a ∧ c'.scene.source = act a c.scene.source) ∧
      failedSizes c'.journal = failedSizes c.journal ++ new.filterMap Deed.failedSize? ∧
      ((∀ counters, t ≠ .counters counters) →
        c'.scene.counters = new.foldl Deed.tally c.scene.counters) := by
  have hSame : Chronicle setup.settings c.scene.worker c.journal (deeds ++ []) := by
    rwa [List.append_nil]
  have hSizes : failedSizes c.journal = failedSizes c.journal ++ [] := (List.append_nil _).symm
  cases t with
  | work now =>
    simp only [turn]
    split
    · obtain ⟨new, hMove, hNew, hTells⟩ := step_chronicle setup now c.scene h
      refine ⟨new, hNew, .inl hMove, ?_, fun _ => hTells.counters⟩
      rw [failedSizes_append, hTells.failedSizes]
    · exact ⟨[], hSame, .inl (.rest _ _), hSizes, fun _ => rfl⟩
  | outside a => exact ⟨[], hSame, .inr ⟨rfl, rfl, a, rfl, rfl⟩, hSizes, fun _ => rfl⟩
  | cancel | store _ => exact ⟨[], hSame, .inl (.rest _ _), hSizes, fun _ => rfl⟩
  | counters counters =>
    exact ⟨[], hSame, .inl (.rest _ _), hSizes, fun h => absurd rfl (h counters)⟩

/-- The deeds are those of the journal, and they account for all that was counted. -/
structure Told (settings : WorkerSettings) (c : Course σ τ φ ψ) (deeds : List Deed) : Prop where
  chronicle : Chronicle settings c.scene.worker c.journal deeds
  failedSizes : failedSizes c.journal = deeds.filterMap Deed.failedSize?
  counters : c.scene.counters = deeds.foldl Deed.tally {}

theorem told_start (settings : WorkerSettings) (source : σ) (store : τ) :
    Told settings (start settings source store : Course σ τ φ ψ) [] :=
  ⟨chronicle_idle settings 0, rfl, rfl⟩

theorem Told.turn (setup : Setup σ τ φ ψ) (act : α → σ → σ) {c : Course σ τ φ ψ}
    {deeds : List Deed} (h : Told setup.settings c deeds) {t : Turn α τ}
    (hCounters : ∀ counters, t ≠ .counters counters) :
    let c' := c.turn setup act t
    ∃ new, Told setup.settings c' (deeds ++ new) ∧
      (Custody.Move setup.intake setup.settings c.scene.worker.custody c.scene.source new
          c'.scene.worker.custody c'.scene.source ∨
        new = [] ∧ c'.scene.worker = c.scene.worker ∧
          ∃ a, t = .outside a ∧ c'.scene.source = act a c.scene.source) := by
  obtain ⟨new, hNew, hTurn, hSizes, hCount⟩ := turn_move setup act h.chronicle t
  refine ⟨new, ⟨hNew, ?_, ?_⟩, hTurn⟩
  · rw [hSizes, h.failedSizes, List.filterMap_append]
  · rw [hCount hCounters, h.counters, List.foldl_append]

section Keeping

variable {setup : Setup σ τ φ ψ} {act : α → σ → σ} {I : Custody φ → σ → List Deed → Prop}
  (hMove : ∀ {c s deeds new c' s'}, I c s deeds →
    Custody.Move setup.intake setup.settings c s new c' s' → I c' s' (deeds ++ new))

include hMove

/-- What the moves of custody and the changes of the source keep, a turn keeps. -/
theorem turn_keeps (hAct : ∀ {c s deeds} a, I c s deeds → I c (act a s) deeds)
    {c : Course σ τ φ ψ}
    (h : ∃ deeds, Chronicle setup.settings c.scene.worker c.journal deeds ∧
      I c.scene.worker.custody c.scene.source deeds) (t : Turn α τ) :
    ∃ deeds,
      Chronicle setup.settings (c.turn setup act t).scene.worker (c.turn setup act t).journal deeds ∧
      I (c.turn setup act t).scene.worker.custody (c.turn setup act t).scene.source deeds := by
  obtain ⟨deeds, hChronicle, hI⟩ := h
  obtain ⟨new, hNew, hTurn | ⟨rfl, hWorker, a, -, hSource⟩, -⟩ := turn_move setup act hChronicle t
  · exact ⟨deeds ++ new, hNew, hMove hI hTurn⟩
  · refine ⟨deeds ++ [], hNew, ?_⟩
    rw [List.append_nil, hWorker, hSource]
    exact hAct a hI

/-- What holds of a worker without custody and is kept by the moves holds after every course. -/
theorem run_from_start (hAct : ∀ {c s deeds} a, I c s deeds → I c (act a s) deeds) {source : σ}
    {store : τ} (h : I {} source []) (turns : List (Turn α τ)) :
    let c := run setup act turns (start setup.settings source store)
    ∃ deeds, Chronicle setup.settings c.scene.worker c.journal deeds ∧
      I c.scene.worker.custody c.scene.source deeds := by
  have hRun : ∀ c : Course σ τ φ ψ, (∃ deeds,
      Chronicle setup.settings c.scene.worker c.journal deeds ∧
        I c.scene.worker.custody c.scene.source deeds) →
      ∃ deeds, Chronicle setup.settings (run setup act turns c).scene.worker
          (run setup act turns c).journal deeds ∧
        I (run setup act turns c).scene.worker.custody (run setup act turns c).scene.source
          deeds := by
    induction turns with
    | nil => exact fun c hc => hc
    | cons t turns ih => exact fun c hc => ih _ (turn_keeps hMove hAct hc t)
  exact hRun _ ⟨[], chronicle_idle setup.settings 0, h⟩

variable (setup act) in
/-- The same from any course on, with all that is told of it, as long as nobody else counts. -/
theorem run_told {turns : List (Turn α τ)} (hCounters : ∀ counters, .counters counters ∉ turns)
    (hAct : ∀ {c s deeds} a, .outside a ∈ turns → I c s deeds → I c (act a s) deeds)
    {c : Course σ τ φ ψ} {deeds : List Deed} (hTold : Told setup.settings c deeds)
    (h : I c.scene.worker.custody c.scene.source deeds) :
    ∃ deeds, Told setup.settings (run setup act turns c) deeds ∧
      I (run setup act turns c).scene.worker.custody (run setup act turns c).scene.source
        deeds := by
  induction turns generalizing c deeds with
  | nil => exact ⟨deeds, hTold, h⟩
  | cons t turns ih =>
    obtain ⟨new, hToldNew, hTurn⟩ := hTold.turn setup act (t := t)
      fun counters ht => hCounters counters (ht ▸ List.mem_cons_self)
    refine ih (fun counters hMem => hCounters counters (List.mem_cons_of_mem _ hMem))
      (fun a hMem => hAct a (List.mem_cons_of_mem _ hMem)) hToldNew ?_
    obtain hTurn | ⟨rfl, hWorker, a, rfl, hSource⟩ := hTurn
    · exact hMove h hTurn
    · rw [List.append_nil, hWorker, hSource]
      exact hAct a List.mem_cons_self h

end Keeping

section Workers

variable {setup : Setup σ τ φ ψ} {act : α → σ → σ}

theorem run_worker {P : Worker φ ψ → Prop}
    (hStep : ∀ now s, P s.worker → P (step setup now s).1.worker) {c : Course σ τ φ ψ}
    (h : P c.scene.worker) (turns : List (Turn α τ)) : P (c.run setup act turns).scene.worker := by
  induction turns generalizing c with
  | nil => exact h
  | cons t turns ih =>
    apply ih (c := c.turn setup act t)
    cases t with
    | work now =>
      simp only [turn]
      split
      · exact hStep now c.scene h
      · exact h
    | cancel | outside _ | store _ | counters _ => exact h

theorem run_tidy (source : σ) (store : τ) (turns : List (Turn α τ)) :
    (run setup act turns (start setup.settings source store)).scene.worker.Tidy := by
  have hStart : (start setup.settings source store : Course σ τ φ ψ).scene.worker.Tidy := trivial
  exact run_worker (step_tidy setup) hStart turns

end Workers

def ofRun (r : Run (Scene σ τ φ ψ) Happening) : Course σ τ φ ψ where
  scene := r.state
  journal := r.journal.toList.map Prod.snd

/-- A timed run of a worker goes through a course. -/
theorem exists_run_eq_ofRun_advance (setup : Setup σ τ φ ψ) (act : α → σ → σ)
    (limit : Option Instant) (fuel : Nat) (r : Run (Scene σ τ φ ψ) Happening) :
    ∃ turns : List (Turn α τ),
      ofRun (r.advance (activity setup) limit fuel) = (ofRun r).run setup act turns := by
  induction fuel generalizing r with
  | zero => exact ⟨[], rfl⟩
  | succ fuel ih =>
    simp only [Run.advance]
    split
    · rename_i state events hMove
      simp only [activity, Option.ite_none_right_eq_some, Option.some.injEq] at hMove
      obtain ⟨hReady, hStep⟩ := hMove
      obtain ⟨turns, hTurns⟩ := ih (r.record state events)
      refine ⟨.work r.now :: turns, hTurns.trans ?_⟩
      have hTurn : ofRun (r.record state events) = (ofRun r).turn setup act (.work r.now) := by
        simp [turn, ofRun, Run.record, hReady, hStep, Function.comp_def]
      rw [hTurn]
      rfl
    · split
      · exact ⟨[], rfl⟩
      · exact ih _
      · exact ⟨[], rfl⟩
      · split
        · exact ih _
        · exact ⟨[], rfl⟩

end Course

end EventIngest.Worker
