import EventIngest.Proofs.Course
/-!
# Relays

Workers over one source, each with a setup of its own, that take turns in any order. A worker may
take over from another or work beside it, and one that never has a turn is as good as none. What the
moves of custody keep is kept along every run of a relay.
-/
namespace EventIngest

open Worker (Course Setup Turn Chronicle idle chronicle_idle)

variable {α β σ τ φ ψ : Type}

/-- What a worker of a relay has to itself. -/
structure Runner (φ ψ : Type) where
  worker : Worker φ ψ
  cancelled : Bool := false
  journal : List Happening := []

structure Relay (σ τ φ ψ : Type) where
  source : σ
  store : τ
  counters : Counters := {}
  runners : Nat → Runner φ ψ

namespace Relay

section Put

variable {f : Nat → β} {i j : Nat} {b b' : β}

def put (f : Nat → β) (i : Nat) (b : β) : Nat → β := fun j => if j = i then b else f j

@[simp] theorem put_same : put f i b i = b := if_pos rfl

theorem put_other (h : j ≠ i) : put f i b j = f j := if_neg h

@[simp] theorem put_self : put f i (f i) = f := by
  funext j
  by_cases h : j = i
  · rw [h, put_same]
  · rw [put_other h]

@[simp] theorem put_put : put (put f i b) i b' = put f i b' := by
  funext j
  by_cases h : j = i
  · rw [h, put_same, put_same]
  · rw [put_other h, put_other h, put_other h]

end Put

/-- The course of a worker, in which all others are others that use the source and the store. -/
def course (r : Relay σ τ φ ψ) (i : Nat) : Course σ τ φ ψ where
  scene := ⟨(r.runners i).worker, r.source, r.store, r.counters, (r.runners i).cancelled⟩
  journal := (r.runners i).journal

def withCourse (r : Relay σ τ φ ψ) (i : Nat) (c : Course σ τ φ ψ) : Relay σ τ φ ψ where
  source := c.scene.source
  store := c.scene.store
  counters := c.scene.counters
  runners := put r.runners i ⟨c.scene.worker, c.scene.cancelled, c.journal⟩

def start (setup : Nat → Setup σ τ φ ψ) (source : σ) (store : τ) : Relay σ τ φ ψ where
  source := source
  store := store
  runners i := { worker := idle (setup i).settings 0 }

def turn (setup : Nat → Setup σ τ φ ψ) (act : α → σ → σ) (r : Relay σ τ φ ψ)
    (t : Nat × Turn α τ) : Relay σ τ φ ψ :=
  r.withCourse t.1 ((r.course t.1).turn (setup t.1) act t.2)

def run (setup : Nat → Setup σ τ φ ψ) (act : α → σ → σ) (turns : List (Nat × Turn α τ))
    (r : Relay σ τ φ ψ) : Relay σ τ φ ψ := turns.foldl (turn setup act) r

theorem run_append (setup : Nat → Setup σ τ φ ψ) (act : α → σ → σ)
    (before after : List (Nat × Turn α τ)) (r : Relay σ τ φ ψ) :
    run setup act (before ++ after) r = run setup act after (run setup act before r) :=
  List.foldl_append

def custodies (r : Relay σ τ φ ψ) (i : Nat) : Custody φ := (r.runners i).worker.custody

theorem runners_withCourse (r : Relay σ τ φ ψ) (i : Nat) (c : Course σ τ φ ψ) :
    (r.withCourse i c).runners
      = put r.runners i ⟨c.scene.worker, c.scene.cancelled, c.journal⟩ := rfl

theorem custodies_withCourse (r : Relay σ τ φ ψ) (i : Nat) (c : Course σ τ φ ψ) :
    (r.withCourse i c).custodies = put r.custodies i c.scene.worker.custody := by
  funext j
  by_cases h : j = i
  · rw [h, put_same, custodies, runners_withCourse, put_same]
  · rw [put_other h, custodies, runners_withCourse, put_other h, custodies]

/-- The journals of the workers are of some deeds for which the invariant holds. -/
def Keeps (setup : Nat → Setup σ τ φ ψ) (I : (Nat → Custody φ) → σ → (Nat → List Deed) → Prop)
    (r : Relay σ τ φ ψ) : Prop :=
  ∃ deeds : Nat → List Deed,
    (∀ i, Chronicle (setup i).settings (r.runners i).worker (r.runners i).journal (deeds i)) ∧
      I r.custodies r.source deeds

section Keeping

variable {setup : Nat → Setup σ τ φ ψ} {act : α → σ → σ}
  {I : (Nat → Custody φ) → σ → (Nat → List Deed) → Prop}

theorem keeps_start {source : σ} {store : τ} (h : I (fun _ => {}) source fun _ => []) :
    (start setup source store).Keeps setup I :=
  ⟨fun _ => [], fun i => chronicle_idle (setup i).settings 0, h⟩

variable
  (hMove : ∀ {cs s deeds} i {new c' s'}, I cs s deeds →
    Custody.Move (setup i).intake (setup i).settings (cs i) s new c' s' →
      I (put cs i c') s' (put deeds i (deeds i ++ new)))
  (hAct : ∀ {cs s deeds} a, I cs s deeds → I cs (act a s) deeds)

include hMove hAct

/-- What the moves of every custody and the changes of the source keep, a turn keeps. -/
theorem turn_keeps {r : Relay σ τ φ ψ} (h : r.Keeps setup I) (t : Nat × Turn α τ) :
    (r.turn setup act t).Keeps setup I := by
  obtain ⟨deeds, hChronicles, hI⟩ := h
  obtain ⟨i, t⟩ := t
  -- For the one worker, the invariant is about its own custody with all others as they are.
  have hOwn : ∀ {c s own new c' s'}, I (put r.custodies i c) s (put deeds i own) →
      Custody.Move (setup i).intake (setup i).settings c s new c' s' →
        I (put r.custodies i c') s' (put deeds i (own ++ new)) := by
    intro c s own new c' s' hI hStep
    have hStepHere : Custody.Move (setup i).intake (setup i).settings (put r.custodies i c i) s new
        c' s' := by rwa [put_same]
    have hMoved := hMove i hI hStepHere
    rwa [put_put, put_put, put_same] at hMoved
  have hCourse : I (put r.custodies i (r.custodies i)) r.source (put deeds i (deeds i)) := by
    rwa [put_self, put_self]
  obtain ⟨own, hChronicle, hKept⟩ : ∃ own,
      let c := (r.course i).turn (setup i) act t
      Chronicle (setup i).settings c.scene.worker c.journal own ∧
        I (put r.custodies i c.scene.worker.custody) c.scene.source (put deeds i own) :=
    Course.turn_keeps (c := r.course i)
      (I := fun c s own => I (put r.custodies i c) s (put deeds i own)) hOwn hAct
      ⟨deeds i, hChronicles i, hCourse⟩ t
  refine ⟨put deeds i own, fun j => ?_, ?_⟩
  · by_cases h : j = i
    · rw [h, put_same, turn, runners_withCourse, put_same]
      exact hChronicle
    · rw [put_other h, turn, runners_withCourse, put_other h]
      exact hChronicles j
  · rw [turn, custodies_withCourse]
    exact hKept

theorem run_keeps {r : Relay σ τ φ ψ} (h : r.Keeps setup I) (turns : List (Nat × Turn α τ)) :
    (r.run setup act turns).Keeps setup I := by
  induction turns generalizing r with
  | nil => exact h
  | cons t turns ih => exact ih (turn_keeps hMove hAct h t)

end Keeping

end Relay

end EventIngest
