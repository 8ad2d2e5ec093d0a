import EventIngest.Proofs.Custody
/-!
# Workers over a part of a state

A worker whose source is a part of a larger state does with the whole what it does with the part
alone.
-/
namespace EventIngest

variable {σ ρ φ τ ψ : Type}

def Part.Holds (part : Part σ ρ) : Prop := ∀ w p, part.get (part.set p w) = p

theorem Part.Holds.get_set {part : Part σ ρ} (h : part.Holds) (w : σ) (p : ρ) :
    part.get (part.set p w) = p := h w p

theorem Source.within_keeps (intake : Source ρ φ) {part : Part σ ρ} {P : σ → Prop}
    (hSet : ∀ w p, P w → P (part.set p w)) : (intake.within part).Keeps P :=
  ⟨fun _ _ _ => hSet _ _, fun _ _ => hSet _ _, fun _ _ => hSet _ _, fun _ _ => hSet _ _,
    fun _ => hSet _ _, fun _ _ _ _ => hSet _ _⟩

namespace Desk

variable (intake : Source ρ φ) {part : Part σ ρ} (hPart : part.Holds)

def restrict (part : Part σ ρ) (d : Desk σ) : Desk ρ := ⟨part.get d.source, d.counters, d.journal⟩

theorem check_restrict (d : Desk σ) (answer : Except SourceError Unit)
    (failed : SourceError → Notice) :
    (d.check answer failed).restrict part = (d.restrict part).check answer failed := by
  cases answer <;> rfl

include hPart in
theorem ack_restrict (failed : Handle → SourceError → Notice) (d : Desk σ) (h : Handle) :
    (d.ack (intake.within part) failed h).restrict part = (d.restrict part).ack intake failed h := by
  simp only [ack]
  rw [check_restrict]
  simp [restrict, record, Source.within, hPart.get_set]

include hPart in
theorem nak_restrict (d : Desk σ) (h : Handle) :
    (d.nak (intake.within part) h).restrict part = (d.restrict part).nak intake h := by
  simp only [nak]
  rw [check_restrict]
  simp [restrict, record, Source.within, hPart.get_set]

include hPart in
theorem commit_restrict (d : Desk σ) :
    (d.commit (intake.within part)).restrict part = (d.restrict part).commit intake := by
  simp only [commit]
  rw [check_restrict]
  simp [restrict, record, Source.within, hPart.get_set]

theorem foldl_restrict {settle : Desk σ → Handle → Desk σ} {settle' : Desk ρ → Handle → Desk ρ}
    (hSettle : ∀ d h, (settle d h).restrict part = settle' (d.restrict part) h)
    (handles : List Handle) (d : Desk σ) :
    (handles.foldl settle d).restrict part = handles.foldl settle' (d.restrict part) := by
  induction handles generalizing d with
  | nil => rfl
  | cons h handles ih => rw [List.foldl_cons, ih, hSettle, List.foldl_cons]

include hPart in
theorem ackAll_restrict (d : Desk σ) (batch : Batch) :
    (d.ackAll (intake.within part) batch).restrict part
      = (d.restrict part).ackAll intake batch := by
  have hFold := foldl_restrict (ack_restrict intake hPart .ackFailed) batch.handles d
  have hCommit := commit_restrict intake hPart
    (batch.handles.foldl (ack (intake.within part) .ackFailed) d)
  rw [hFold] at hCommit
  simp only [ackAll, ← hCommit]
  rfl

include hPart in
theorem nakAll_restrict (d : Desk σ) (batch : Batch) (failure : InsertError) :
    (d.nakAll (intake.within part) batch failure).restrict part
      = (d.restrict part).nakAll intake batch failure := by
  have hFold := foldl_restrict (nak_restrict intake hPart) batch.handles
    (d.note (.batchReturned batch.length failure.attempts failure.last))
  have hCommit := commit_restrict intake hPart (batch.handles.foldl (nak (intake.within part))
    (d.note (.batchReturned batch.length failure.attempts failure.last)))
  rw [hFold] at hCommit
  simp only [nakAll]
  rw [show (d.restrict part).note (.batchReturned batch.length failure.attempts failure.last)
    = (d.note (.batchReturned batch.length failure.attempts failure.last)).restrict part from rfl,
    ← hCommit]
  rfl

include hPart in
theorem putAside_restrict (d : Desk σ) (h : Handle) (m : Malformed) :
    (d.putAside (intake.within part) h m).restrict part = (d.restrict part).putAside intake h m := by
  simp only [putAside]
  have hAnswer : ((intake.within part).deadLetter d.source h m.raw m.reason.message).1
      = (intake.deadLetter (part.get d.source) h m.raw m.reason.message).1 := rfl
  rw [hAnswer]
  generalize hLetter : intake.deadLetter (part.get d.source) h m.raw m.reason.message = letter
  obtain ⟨answer, p⟩ := letter
  cases answer with
  | ok u =>
    rw [ack_restrict intake hPart]
    simp [restrict, record, Source.within, hPart.get_set, hLetter]
  | error e =>
    rw [nak_restrict intake hPart]
    simp [restrict, record, note, Source.within, hPart.get_set, hLetter]

include hPart in
theorem reject_restrict (maxDeliver : Nat) (d : Desk σ) (h : Handle) (m : Malformed) :
    (d.reject (intake.within part) maxDeliver h m).restrict part
      = (d.restrict part).reject intake maxDeliver h m := by
  simp only [reject]
  split
  · rw [putAside_restrict intake hPart]
    rfl
  · rw [nak_restrict intake hPart]
    rfl

end Desk

namespace Worker

def Setup.within (setup : Setup ρ τ φ ψ) (part : Part σ ρ) : Setup σ τ φ ψ :=
  ⟨setup.settings, setup.intake.within part, setup.store⟩

/-- What a worker sees of a scene if its source is a part of the whole. -/
def Scene.restrict (part : Part σ ρ) (s : Scene σ τ φ ψ) : Scene ρ τ φ ψ :=
  ⟨s.worker, part.get s.source, s.store, s.counters, s.cancelled⟩

def restrict (part : Part σ ρ) (r : Scene σ τ φ ψ × List Happening) :
    Scene ρ τ φ ψ × List Happening := (r.1.restrict part, r.2)

variable {part : Part σ ρ} (setup : Setup ρ τ φ ψ)

theorem beginFlush_restrict (now : Instant) (next : Next) (s : Scene σ τ φ ψ) :
    restrict part (beginFlush (setup.within part) now next s)
      = beginFlush setup now next (s.restrict part) := by
  simp only [beginFlush]
  rw [apply_ite (restrict part)]
  rfl

theorem endFlush_restrict (hPart : part.Holds) (now : Instant) (flush : Flush)
    (result : Except InsertError Nat) (s : Scene σ τ φ ψ) :
    restrict part (endFlush (setup.within part) now flush result s)
      = endFlush setup now flush result (s.restrict part) := by
  cases result with
  | ok attempts =>
    have hAck := Desk.ackAll_restrict setup.intake hPart s.desk flush.batch
    simp only [endFlush]
    rw [show (s.restrict part).desk = s.desk.restrict part from rfl, ← hAck]
    rfl
  | error failure =>
    have hNak := Desk.nakAll_restrict setup.intake hPart s.desk flush.batch failure
    simp only [endFlush]
    rw [show (s.restrict part).desk = s.desk.restrict part from rfl, ← hNak]
    rfl

theorem onFetch_restrict (now : Instant) (s : Scene σ τ φ ψ) (f : Fetch φ) :
    restrict part (onFetch now s f) = onFetch now (s.restrict part) f := by
  match f with
  | .answered (.ok _) | .answered (.error _) | .waiting .. | .stalled | .crashed => rfl

/-- The source answers the same, and the part becomes what it would have become. -/
theorem onFetch_set_restrict (hPart : part.Holds) (now : Instant) (s : Scene σ τ φ ψ)
    (f : Fetch φ) (p : ρ) :
    restrict part (onFetch now { s with source := part.set p s.source } f)
      = onFetch now { s.restrict part with source := p } f := by
  rw [onFetch_restrict]
  simp only [Scene.restrict, hPart.get_set]

theorem poll_restrict (hPart : part.Holds) (now : Instant) (s : Scene σ τ φ ψ) :
    restrict part (poll (setup.within part) now s) = poll setup now (s.restrict part) := by
  simp only [poll]
  rw [apply_ite (restrict part), beginFlush_restrict]
  refine ite_congr rfl (fun _ => rfl) (fun _ => ?_)
  have hFetched := onFetch_set_restrict hPart now s
    (setup.intake.fetch (part.get s.source) s.worker.buffer.room
      (min setup.settings.fetchWait (s.worker.buffer.deadline - now))).1
    (setup.intake.fetch (part.get s.source) s.worker.buffer.room
      (min setup.settings.fetchWait (s.worker.buffer.deadline - now))).2
  exact congrArg (fun r => (r.1, .fetch s.worker.buffer.room
    (min setup.settings.fetchWait (s.worker.buffer.deadline - now)) :: r.2)) hFetched

theorem absorb_restrict (hPart : part.Holds) (now : Instant) (rejected : Bool)
    (s : Scene σ τ φ ψ) (rest : List Delivery) :
    restrict part (absorb (setup.within part) now rejected s rest)
      = absorb setup now rejected (s.restrict part) rest := by
  cases rest with
  | nil =>
    cases rejected with
    | false => rfl
    | true =>
      have hCommit := Desk.commit_restrict setup.intake hPart s.desk
      simp only [absorb, if_true]
      rw [show (s.restrict part).desk = s.desk.restrict part from rfl, ← hCommit]
      rfl
  | cons d rest =>
    simp only [absorb]
    split
    · rw [apply_ite (restrict part), beginFlush_restrict]
      rfl
    · rename_i m hContent
      have hReject := Desk.reject_restrict setup.intake hPart setup.settings.maxDeliver s.desk
        d.handle m
      rw [show (s.restrict part).desk = s.desk.restrict part from rfl, ← hReject]
      rfl

/-- A step with a part of the whole is the step with the part. -/
theorem step_restrict (hPart : part.Holds) (now : Instant) (s : Scene σ τ φ ψ) :
    restrict part (step (setup.within part) now s) = step setup now (s.restrict part) := by
  have hPhase : (s.restrict part).worker.phase = s.worker.phase := rfl
  simp only [step, hPhase]
  cases s.worker.phase with
  | polling =>
    rw [apply_ite (restrict part), poll_restrict setup hPart]
    rfl
  | fetching due call =>
    rw [apply_ite (restrict part)]
    exact ite_congr rfl (fun _ => rfl) (fun _ => onFetch_set_restrict hPart now s _ _)
  | absorbing rest rejected => exact absorb_restrict setup hPart now rejected s rest
  | writing flush writing =>
    have hStore : (setup.within part).store = setup.store := rfl
    have hSettings : (setup.within part).settings = setup.settings := rfl
    have hScene : (s.restrict part).store = s.store := rfl
    simp only [hStore, hSettings, hScene]
    rcases writing.step setup.store setup.settings.retry s.store now flush.rows
      with ⟨writing | result, store, journal⟩
    · rfl
    · exact congrArg (fun r => (r.1, journal ++ r.2))
        (endFlush_restrict setup hPart now flush result { s with store })
  | draining =>
    rw [apply_ite (restrict part)]
    refine ite_congr rfl (fun _ => rfl) (fun _ => ?_)
    rw [← beginFlush_restrict]
    rfl
  | pausing due =>
    rw [apply_ite (restrict part)]
    rfl
  | starting | stalled | stopping | stopped | crashed => rfl

theorem beginFlush_cancelled (setup : Setup σ τ φ ψ) (now : Instant) (next : Next)
    (s : Scene σ τ φ ψ) : (beginFlush setup now next s).1.cancelled = s.cancelled := by
  simp only [beginFlush]
  split <;> rfl

theorem step_cancelled (setup : Setup σ τ φ ψ) (now : Instant) {s : Scene σ τ φ ψ}
    (h : s.cancelled = true) : (step setup now s).1.cancelled = true := by
  cases hPhase : s.worker.phase with
  | polling | fetching due call | pausing due =>
    simp only [step, hPhase]
    rw [if_pos h]
    exact h
  | absorbing rest rejected =>
    simp only [step, hPhase]
    cases rest with
    | nil => exact h
    | cons d rest =>
      simp only [absorb]
      split
      · split
        · exact (beginFlush_cancelled setup now _ _).trans h
        · exact h
      · exact h
  | writing flush writing =>
    simp only [step, hPhase]
    split <;> exact h
  | draining =>
    simp only [step, hPhase]
    split
    · exact h
    · exact (beginFlush_cancelled setup now .stop s).trans h
  | starting | stalled | stopping | stopped | crashed =>
    simp only [step, hPhase]
    exact h

end Worker

end EventIngest
