import EventIngest.Proofs.Custody
import EventIngest.Store.Planned
/-!
# What a step does not depend on

Nothing that a worker does depends on what was counted before. If the answers of the store depend on
nothing but the call and its time, then two workers that are in the same state with equal sources
make the same step, whatever was written into either store.
-/
namespace EventIngest

variable {σ τ φ ψ : Type}

/-- In the states that `P` tells the store answers by the rows, the call and the time alone, and it
stays in such a state. -/
structure Store.Steady (store : Store τ ψ) (P : τ → Prop) : Prop where
  insert_keeps : ∀ {t}, P t → ∀ now rows, P (store.insert t now rows).2.2
  finish_keeps : ∀ {t}, P t → ∀ now call rows, P (store.finish t now call rows).2
  insert_same : ∀ {t t'}, P t → P t' → ∀ now rows,
    (store.insert t now rows).1 = (store.insert t' now rows).1 ∧
      (store.insert t now rows).2.1 = (store.insert t' now rows).2.1
  finish_same : ∀ {t t'}, P t → P t' → ∀ now call rows,
    (store.finish t now call rows).1 = (store.finish t' now call rows).1

structure PlannedStore.Idle (outages : List (Instant × Instant)) (s : PlannedStore) : Prop where
  plan : s.plan = []
  refusals : s.refusals = 0
  outages : s.outages = outages

/-- What an idle store answers depends on the outages alone. -/
theorem PlannedStore.steady (outages : List (Instant × Instant)) :
    PlannedStore.store.Steady (PlannedStore.Idle outages) where
  insert_keeps := by
    rintro t ⟨hPlan, hRefusals, hOutages⟩ now rows
    simp only [store, hPlan]
    exact ⟨hPlan, hRefusals, hOutages⟩
  finish_keeps := by
    rintro t ⟨hPlan, hRefusals, hOutages⟩ now (_ | e) rows
    · simp only [store, keep, hRefusals]
      split
      · exact ⟨hPlan, hRefusals, hOutages⟩
      · exact ⟨hPlan, rfl, hOutages⟩
    · exact ⟨hPlan, hRefusals, hOutages⟩
  insert_same := by
    rintro t t' ⟨hPlan, -, -⟩ ⟨hPlan', -, -⟩ now rows
    constructor
    · simp only [store, hPlan, hPlan']
    · simp only [store, hPlan, hPlan']
  finish_same := by
    rintro t t' ⟨-, hRefusals, hOutages⟩ ⟨-, hRefusals', hOutages'⟩ now (_ | e) rows
    · simp only [store, keep, isDown, hRefusals, hRefusals', hOutages, hOutages']
      split
      · rfl
      · rfl
    · rfl

namespace Desk

/-- The same source and journal, whatever was counted. -/
structure Alike (d d' : Desk σ) : Prop where
  source : d.source = d'.source
  journal : d.journal = d'.journal

variable (intake : Source σ φ) {d d' : Desk σ}

theorem Alike.record (h : Alike d d') (entry : Happening) :
    Alike (d.record entry) (d'.record entry) := ⟨h.source, congrArg (· ++ [entry]) h.journal⟩

theorem Alike.check (h : Alike d d') (answer : Except SourceError Unit)
    (failed : SourceError → Notice) : Alike (d.check answer failed) (d'.check answer failed) := by
  cases answer with
  | ok => exact h
  | error e => exact h.record _

theorem Alike.ack (failed : Handle → SourceError → Notice) (handle : Handle) (h : Alike d d') :
    Alike (d.ack intake failed handle) (d'.ack intake failed handle) := by
  simp only [Desk.ack, h.source]
  apply Alike.check
  apply Alike.record
  exact ⟨rfl, h.journal⟩

theorem Alike.nak (handle : Handle) (h : Alike d d') :
    Alike (d.nak intake handle) (d'.nak intake handle) := by
  simp only [Desk.nak, h.source]
  apply Alike.check
  apply Alike.record
  exact ⟨rfl, h.journal⟩

theorem Alike.commit (h : Alike d d') : Alike (d.commit intake) (d'.commit intake) := by
  simp only [Desk.commit, h.source]
  apply Alike.check
  apply Alike.record
  exact ⟨rfl, h.journal⟩

theorem Alike.foldl {settle : Desk σ → Handle → Desk σ}
    (hSettle : ∀ {d d'}, Alike d d' → ∀ handle, Alike (settle d handle) (settle d' handle))
    (handles : List Handle) (h : Alike d d') :
    Alike (handles.foldl settle d) (handles.foldl settle d') := by
  induction handles generalizing d d' with
  | nil => exact h
  | cons handle handles ih => exact ih (hSettle h handle)

theorem Alike.ackAll (batch : Batch) (h : Alike d d') :
    Alike (d.ackAll intake batch) (d'.ackAll intake batch) := by
  obtain ⟨hSource, hJournal⟩ := Alike.commit intake
    (h.foldl (fun h handle => h.ack intake .ackFailed handle) batch.handles)
  exact ⟨hSource, hJournal⟩

theorem Alike.nakAll (batch : Batch) (failure : InsertError) (h : Alike d d') :
    Alike (d.nakAll intake batch failure) (d'.nakAll intake batch failure) := by
  obtain ⟨hSource, hJournal⟩ := Alike.commit intake
    ((h.record (.notice (.batchReturned batch.length failure.attempts failure.last))).foldl
      (fun h handle => h.nak intake handle) batch.handles)
  exact ⟨hSource, hJournal⟩

theorem Alike.putAside (handle : Handle) (m : Malformed) (h : Alike d d') :
    Alike (d.putAside intake handle m) (d'.putAside intake handle m) := by
  obtain ⟨source, counters, journal⟩ := d
  obtain ⟨source', counters', journal'⟩ := d'
  obtain ⟨rfl, rfl⟩ := h
  simp only [Desk.putAside]
  split
  · exact Alike.ack intake .deadLetterAckFailed handle ⟨rfl, rfl⟩
  · exact Alike.nak intake handle ⟨rfl, rfl⟩

theorem Alike.reject (maxDeliver : Nat) (handle : Handle) (m : Malformed) (h : Alike d d') :
    Alike (d.reject intake maxDeliver handle m) (d'.reject intake maxDeliver handle m) := by
  have hNoted : Alike
      (Desk.note { d with counters := d.counters.addErrors 1 } (.undecodable handle m.reason))
      (Desk.note { d' with counters := d'.counters.addErrors 1 } (.undecodable handle m.reason)) :=
    ⟨h.source, congrArg (· ++ [_]) h.journal⟩
  simp only [Desk.reject]
  split
  · exact hNoted.putAside intake handle m
  · exact hNoted.nak intake handle

end Desk

theorem Writing.step_alike {store : Store τ ψ} {P : τ → Prop} (hSteady : store.Steady P)
    (retry : Retry) {t t' : τ} (h : P t) (h' : P t') (now : Instant) (rows : List Row)
    (w : Writing ψ) :
    (w.step store retry t now rows).1 = (w.step store retry t' now rows).1 ∧
    (w.step store retry t now rows).2.2 = (w.step store retry t' now rows).2.2 ∧
    P (w.step store retry t now rows).2.1 ∧ P (w.step store retry t' now rows).2.1 := by
  cases w with
  | calling attempt due call =>
    have hSame := hSteady.finish_same h h' now call rows
    have hKeeps := hSteady.finish_keeps h now call rows
    have hKeeps' := hSteady.finish_keeps h' now call rows
    rcases hAnswer : store.finish t now call rows with ⟨result, u⟩
    rcases hAnswer' : store.finish t' now call rows with ⟨result', u'⟩
    rw [hAnswer] at hSame hKeeps
    rw [hAnswer'] at hSame hKeeps'
    obtain rfl : result = result' := hSame
    simp only [Writing.step, hAnswer, hAnswer']
    cases result with
    | ok => exact ⟨rfl, rfl, hKeeps, hKeeps'⟩
    | error e =>
      simp only
      split
      · exact ⟨rfl, rfl, hKeeps, hKeeps'⟩
      · exact ⟨rfl, rfl, hKeeps, hKeeps'⟩
  | pausing attempt due =>
    obtain ⟨hDelay, hCall⟩ := hSteady.insert_same h h' now rows
    refine ⟨?_, rfl, hSteady.insert_keeps h now rows, hSteady.insert_keeps h' now rows⟩
    simp only [Writing.step, Writing.call]
    rw [hDelay, hCall]

namespace Worker

structure Scene.Alike (P : τ → Prop) (s s' : Scene σ τ φ ψ) : Prop where
  worker : s.worker = s'.worker
  source : s.source = s'.source
  cancelled : s.cancelled = s'.cancelled
  store : P s.store
  store' : P s'.store

def StepsAlike (P : τ → Prop) (r r' : Scene σ τ φ ψ × List Happening) : Prop :=
  r.1.Alike P r'.1 ∧ r.2 = r'.2

variable {setup : Setup σ τ φ ψ} {P : τ → Prop} {s s' : Scene σ τ φ ψ}

theorem StepsAlike.after {r r' : Scene σ τ φ ψ × List Happening} (h : StepsAlike P r r')
    (earlier : List Happening) :
    StepsAlike P (r.1, earlier ++ r.2) (r'.1, earlier ++ r'.2) :=
  ⟨h.1, congrArg (earlier ++ ·) h.2⟩

theorem Scene.Alike.goTo (h : s.Alike P s') (phase : Phase φ ψ) :
    (s.goTo phase).Alike P (s'.goTo phase) :=
  ⟨congrArg (fun w => { w with phase }) h.worker, h.source, h.cancelled, h.store, h.store'⟩

theorem Scene.Alike.desk (h : s.Alike P s') : Desk.Alike s.desk s'.desk := ⟨h.source, rfl⟩

theorem Scene.Alike.leave (h : s.Alike P s') {d d' : Desk σ} (hDesk : Desk.Alike d d') :
    (s.leave d).Alike P (s'.leave d') :=
  ⟨h.worker, hDesk.source, h.cancelled, h.store, h.store'⟩

theorem Scene.Alike.restartTimer (h : s.Alike P s') (now : Instant) :
    (s.restartTimer now).Alike P (s'.restartTimer now) :=
  ⟨congrArg (fun w => { w with buffer := w.buffer.restartTimer now }) h.worker, h.source,
    h.cancelled, h.store, h.store'⟩

variable (now : Instant)

theorem beginFlush_alike (hSteady : setup.store.Steady P) (next : Next) (h : s.Alike P s') :
    StepsAlike P (beginFlush setup now next s) (beginFlush setup now next s') := by
  obtain ⟨worker, source, store, counters, cancelled⟩ := s
  obtain ⟨worker', source', store', counters', cancelled'⟩ := s'
  obtain ⟨rfl, rfl, rfl, hStore, hStore'⟩ := h
  simp only [beginFlush]
  split
  · exact ⟨⟨rfl, rfl, rfl, hStore, hStore'⟩, rfl⟩
  · let rows : List Row := Flush.rows ⟨worker.buffer.batch, now, next⟩
    obtain ⟨hDelay, hCall⟩ := hSteady.insert_same hStore hStore' now rows
    refine ⟨⟨?_, rfl, rfl, hSteady.insert_keeps hStore now rows,
      hSteady.insert_keeps hStore' now rows⟩, rfl⟩
    simp only [Scene.goTo, Writing.start, Writing.call]
    rw [← hDelay, ← hCall]

theorem endFlush_alike (flush : Flush) (result : Except InsertError Nat) (h : s.Alike P s') :
    StepsAlike P (endFlush setup now flush result s) (endFlush setup now flush result s') := by
  cases result with
  | ok attempts =>
    have hDesk := (h.desk.ackAll setup.intake flush.batch).record
      (.notice (.batchFlushed flush.batch.length attempts (now - flush.started)))
    exact ⟨((h.leave hDesk).restartTimer now).goTo flush.next.phase, hDesk.journal⟩
  | error failure =>
    have hDesk := h.desk.nakAll setup.intake flush.batch failure
    exact ⟨((h.leave hDesk).restartTimer now).goTo flush.next.phase, hDesk.journal⟩

theorem onFetch_alike (f : Fetch φ) (h : s.Alike P s') :
    StepsAlike P (onFetch now s f) (onFetch now s' f) := by
  match f with
  | .answered (.ok _) | .answered (.error _) | .waiting .. | .crashed => exact ⟨h.goTo _, rfl⟩
  | .stalled =>
    have hEnd : Scene.Alike P { s with cancelled := true } { s' with cancelled := true } :=
      ⟨h.worker, h.source, rfl, h.store, h.store'⟩
    exact ⟨hEnd.goTo .stalled, rfl⟩

theorem poll_alike (hSteady : setup.store.Steady P) (h : s.Alike P s') :
    StepsAlike P (poll setup now s) (poll setup now s') := by
  obtain ⟨worker, source, store, counters, cancelled⟩ := s
  obtain ⟨worker', source', store', counters', cancelled'⟩ := s'
  obtain ⟨rfl, rfl, rfl, hStore, hStore'⟩ := h
  simp only [poll]
  split
  · exact beginFlush_alike now hSteady .poll ⟨rfl, rfl, rfl, hStore, hStore'⟩
  · refine StepsAlike.after ?_ [_]
    exact onFetch_alike now _ ⟨rfl, rfl, rfl, hStore, hStore'⟩

theorem absorb_alike (hSteady : setup.store.Steady P) (rejected : Bool) (rest : List Delivery)
    (h : s.Alike P s') :
    StepsAlike P (absorb setup now rejected s rest) (absorb setup now rejected s' rest) := by
  cases rest with
  | nil =>
    have hDesk : Desk.Alike (if rejected then s.desk.commit setup.intake else s.desk)
        (if rejected then s'.desk.commit setup.intake else s'.desk) := by
      split
      · exact h.desk.commit setup.intake
      · exact h.desk
    exact ⟨(h.leave hDesk).goTo .polling, hDesk.journal⟩
  | cons d rest =>
    simp only [absorb]
    split
    · obtain ⟨worker, source, store, counters, cancelled⟩ := s
      obtain ⟨worker', source', store', counters', cancelled'⟩ := s'
      obtain ⟨rfl, rfl, rfl, hStore, hStore'⟩ := h
      simp only
      split
      · exact beginFlush_alike now hSteady _ ⟨rfl, rfl, rfl, hStore, hStore'⟩
      · exact ⟨⟨rfl, rfl, rfl, hStore, hStore'⟩, rfl⟩
    · rename_i m hContent
      have hDesk := h.desk.reject setup.intake setup.settings.maxDeliver d.handle m
      exact ⟨(h.leave hDesk).goTo _, hDesk.journal⟩

theorem write_alike (hSteady : setup.store.Steady P) (h : s.Alike P s') {flush : Flush}
    {writing : Writing ψ} (hPhase : s.worker.phase = .writing flush writing) :
    StepsAlike P (step setup now s) (step setup now s') := by
  have hPhase' : s'.worker.phase = .writing flush writing := h.worker ▸ hPhase
  obtain ⟨hOutcome, hJournal, hStore, hStore'⟩ :=
    Writing.step_alike hSteady setup.settings.retry h.store h.store' now flush.rows writing
  simp only [step, hPhase, hPhase']
  generalize writing.step setup.store setup.settings.retry s.store now flush.rows = r at *
  generalize writing.step setup.store setup.settings.retry s'.store now flush.rows = r' at *
  obtain ⟨outcome, store, journal⟩ := r
  obtain ⟨outcome', store', journal'⟩ := r'
  obtain rfl : outcome = outcome' := hOutcome
  obtain rfl : journal = journal' := hJournal
  have hWritten : Scene.Alike P { s with store } { s' with store := store' } :=
    ⟨h.worker, h.source, h.cancelled, hStore, hStore'⟩
  cases outcome with
  | inl writing => exact ⟨hWritten.goTo _, rfl⟩
  | inr result => exact (endFlush_alike now flush result hWritten).after journal

variable (setup) in
/-- The same worker with the same source makes the same step. -/
theorem step_alike (hSteady : setup.store.Steady P) (h : s.Alike P s') :
    StepsAlike P (step setup now s) (step setup now s') := by
  obtain ⟨⟨phase, b⟩, source, store, counters, cancelled⟩ := s
  obtain ⟨worker', source', store', counters', cancelled'⟩ := s'
  obtain ⟨rfl, rfl, rfl, hStore, hStore'⟩ := h
  have hScene : Scene.Alike P (⟨⟨phase, b⟩, source, store, counters, cancelled⟩ : Scene σ τ φ ψ)
      ⟨⟨phase, b⟩, source, store', counters', cancelled⟩ := ⟨rfl, rfl, rfl, hStore, hStore'⟩
  cases phase with
  | writing flush writing => exact write_alike now hSteady hScene rfl
  | absorbing rest rejected => exact absorb_alike now hSteady rejected rest hScene
  | starting => exact ⟨(hScene.restartTimer now).goTo .polling, rfl⟩
  | stalled => exact ⟨hScene.goTo .draining, rfl⟩
  | stopping => exact ⟨hScene.goTo .stopped, rfl⟩
  | stopped | crashed => exact ⟨hScene, rfl⟩
  | polling =>
    cases cancelled with
    | true => exact ⟨hScene.goTo .draining, rfl⟩
    | false => exact poll_alike now hSteady hScene
  | fetching due call =>
    cases cancelled with
    | true => exact ⟨hScene.goTo .draining, rfl⟩
    | false => exact onFetch_alike now _ ⟨rfl, rfl, rfl, hStore, hStore'⟩
  | pausing due =>
    cases cancelled with
    | true => exact ⟨hScene.goTo .draining, rfl⟩
    | false => exact ⟨hScene.goTo .polling, rfl⟩
  | draining =>
    simp only [step]
    split
    · exact ⟨hScene.goTo .stopping, rfl⟩
    · exact (beginFlush_alike now hSteady .stop hScene).after [_]

end Worker

end EventIngest
