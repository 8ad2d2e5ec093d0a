import EventIngest.Proofs.Balance
import EventIngest.Proofs.Modest
import EventIngest.Proofs.SettledOnce
import EventIngest.Proofs.Timed
/-!
# The end of a cancelled worker

What is left to write once a worker is cancelled: the batch that it writes, and then the events that
it holds. Every step of a cancelled worker keeps this plan, or settles the first batch of it, and
leaves fewer steps to make. So the worker stops, and until it begins to write it makes its steps
without any time passing.
-/
namespace EventIngest

variable {α σ τ φ ψ : Type}

@[simp] def Happening.isFetching : Happening → Bool
  | .fetch .. | .fetched _ | .fetchStalled => true
  | _ => false

namespace Journal

theorem Plain.not_fetching {journal : List Happening} (h : Plain journal) :
    ∀ entry ∈ journal, entry.isFetching = false := by
  intro entry hEntry
  have hPlain := h entry hEntry
  cases entry with
  | fetch | fetched _ | fetchStalled => cases hPlain
  | _ => rfl

theorem arrivals_of_not_fetching {journal : List Happening}
    (h : ∀ entry ∈ journal, entry.isFetching = false) : arrivals journal = [] := by
  refine List.flatMap_eq_nil_iff.mpr fun entry hEntry => ?_
  have hNot := h entry hEntry
  cases entry with
  | fetched _ => cases hNot
  | _ => rfl

end Journal

open Journal

namespace Worker

/-- The events that a worker has and does not write yet. -/
def pending (w : Worker φ ψ) : Batch :=
  w.buffer.batch ++ w.phase.coming.filterMap Delivery.parcel?

theorem pending_nil {w : Worker φ ψ} (hBatch : w.buffer.batch = []) (hComing : w.phase.coming = []) :
    w.pending = [] := by
  rw [pending, hBatch, hComing]
  rfl

/-- The batches that a cancelled worker is still to settle. -/
def plan (w : Worker φ ψ) : List Batch := w.phase.written.present ++ w.pending.present

theorem flatten_plan (w : Worker φ ψ) :
    w.plan.flatten = w.custody.held ++ w.custody.coming.filterMap Delivery.parcel? := by
  simp [plan, pending, custody]

theorem written_mem_plan {most : φ → Nat} {size : Nat} {w : Worker φ ψ} (hSnug : w.Snug most size)
    (hWriting : w.phase.isWriting = true) : w.phase.written ∈ w.plan := by
  obtain ⟨-, hFits⟩ := hSnug
  rw [plan]
  generalize w.phase = phase at hFits hWriting
  cases phase with
  | writing flush writing =>
    apply List.mem_append_left
    change flush.batch ∈ flush.batch.present
    rw [Batch.present_of_ne (List.length_pos_iff.mp hFits.2.2.1)]
    exact List.mem_singleton_self _
  | _ => cases hWriting

theorem pending_mem_plan {w : Worker φ ψ} (hPending : w.pending ≠ []) : w.pending ∈ w.plan := by
  apply List.mem_append_right
  rw [Batch.present_of_ne hPending]
  exact List.mem_singleton_self _

/-- What a cancelled worker that writes nothing does at last: it begins to write what it has, or it
stops. -/
def closing (w : Worker φ ψ) : Happening :=
  if w.pending = [] then .notice .workerStopped else .insert w.pending.rows

@[simp] theorem Next.phase_written (next : Next) : (next.phase : Phase φ ψ).written = [] := by
  cases next <;> rfl

section Stride

variable {setup : Setup σ τ φ ψ} {now : Instant} {most : φ → Nat} {size : Nat} {w w' : Worker φ ψ}
  {journal : List Happening}

/-- A cancelled worker makes no step of a fetch. -/
theorem Stride.not_fetching (h : Stride setup now true w w' journal) :
    ∀ entry ∈ journal, entry.isFetching = false := by
  cases h with
  | expire hStays | ask _ hStays | resume _ _ _ hStays | rest _ _ hStays | flush hStays =>
    cases hStays
  | refuse _ _ _ _ hPlain | finish _ _ hPlain | settle _ _ _ hPlain => exact hPlain.not_fetching
  | retry b flush hRetries hJournal =>
    obtain hPlain | rfl := hJournal
    · exact hPlain.not_fetching
    · simp
  | _ => simp

theorem Stride.plan_eq (h : Stride setup now true w w' journal) (hSnug : w.Snug most size) :
    w'.plan = w.plan ∨ ∃ b, b ≠ [] ∧ w.plan = [b] ∧ w'.plan = [] := by
  cases h with
  | expire hStays | ask _ hStays | resume _ _ _ hStays | rest _ _ hStays | flush hStays =>
    cases hStays
  | start | retry | finish | empty | stop | ended => exact .inl rfl
  | @leave p b hHeedful hLeaves =>
    cases p with
    | polling | fetching _ _ | pausing _ | stalled => exact .inl rfl
    | _ => cases hHeedful
  | take rest rejected hParcel hRoom =>
    refine .inl ?_
    simp [plan, pending, Buffer.push, List.filterMap_cons_some hParcel]
  | fill rest rejected hParcel hFull due call =>
    refine .inl ?_
    simp [plan, pending, Buffer.emptied, hSnug.rest_nil rfl hFull,
      List.filterMap_cons_some hParcel]
  | refuse b rest rejected hRefusal hPlain =>
    refine .inl ?_
    simp [plan, pending, List.filterMap_cons_none hRefusal]
  | lastFlush hBatch due call =>
    refine .inl ?_
    simp [plan, pending, Buffer.emptied]
  | settle b flush w hPlain =>
    obtain ⟨hEmpty, hComing, hPos, -⟩ := hSnug.2
    have hWritten : flush.batch ≠ [] := List.length_pos_iff.mp hPos
    have hAfter : (⟨flush.next.phase, b.restartTimer now⟩ : Worker φ ψ).pending = [] :=
      pending_nil hEmpty (flush.next.phase_coming.trans hComing)
    refine .inr ⟨flush.batch, hWritten, ?_, ?_⟩
    · rw [plan, pending_nil hEmpty hComing]
      exact congrArg (· ++ []) (Batch.present_of_ne hWritten)
    · rw [plan, hAfter, Next.phase_written]
      rfl

/-- A worker inserts nothing but what it plans to. -/
theorem Stride.insert_planned (h : Stride setup now true w w' journal) (hSnug : w.Snug most size)
    {rows : List Row} (hInsert : .insert rows ∈ journal) : ∃ b ∈ w.plan, rows = b.rows := by
  obtain ⟨flush, writing, hPhase, rfl⟩ | ⟨batch, hSends, rfl⟩ := h.of_insert hInsert
  · refine ⟨_, written_mem_plan hSnug (by rw [hPhase]; rfl), ?_⟩
    rw [hPhase]
    rfl
  suffices hBatch : w.pending = batch ∧ batch ≠ [] by
    obtain ⟨rfl, hBatch⟩ := hBatch
    exact ⟨_, pending_mem_plan hBatch, rfl⟩
  rw [pending]
  generalize hPhase : w.phase = phase at hSends
  cases hSends with
  | @fill d p rest rejected hParcel hFull =>
    refine ⟨?_, List.append_ne_nil_of_right_ne_nil _ (List.cons_ne_nil p [])⟩
    rw [hSnug.rest_nil hPhase hFull]
    exact congrArg (w.buffer.batch ++ ·) (List.filterMap_cons_some hParcel)
  | flush hStays => cases hStays
  | last hBatch hNotice => exact ⟨List.append_nil _, hBatch⟩

/-- A cancelled worker that writes nothing closes, or is as far from closing as before. -/
theorem Stride.closing_mem (h : Stride setup now true w w' journal) (hSnug : w.Snug most size)
    (hWriting : w.phase.isWriting = false) (hRuns : w.hasEnded = false) :
    w.closing ∈ journal ∨
      w'.phase.isWriting = false ∧ w'.hasEnded = false ∧ w'.pending = w.pending := by
  cases h with
  | expire hStays | ask _ hStays | resume _ _ _ hStays | rest _ _ hStays | flush hStays =>
    cases hStays
  | retry | settle => cases hWriting
  | start | finish | empty => exact .inr ⟨rfl, rfl, rfl⟩
  | @leave p b hHeedful hLeaves =>
    cases p with
    | polling | fetching _ _ | pausing _ | stalled => exact .inr ⟨rfl, rfl, rfl⟩
    | _ => cases hHeedful
  | take rest rejected hParcel hRoom =>
    refine .inr ⟨rfl, rfl, ?_⟩
    simp [pending, Buffer.push, List.filterMap_cons_some hParcel]
  | refuse b rest rejected hRefusal hPlain =>
    refine .inr ⟨rfl, rfl, ?_⟩
    simp [pending, List.filterMap_cons_none hRefusal]
  | fill rest rejected hParcel hFull due call =>
    refine .inl ?_
    simp [closing, pending, hSnug.rest_nil rfl hFull, List.filterMap_cons_some hParcel]
  | lastFlush hBatch due call =>
    refine .inl ?_
    simp [closing, pending, hBatch]
  | stop b =>
    have hBatch : b.batch = [] := hSnug.2
    refine .inl ?_
    simp [closing, pending, hBatch]
  | ended hEnded =>
    rw [hEnded] at hRuns
    cases hRuns

end Stride

section StepsLeft

/-- How many steps a writing can still take. -/
def writingStepsLeft (maxAttempts : Nat) : Writing ψ → Nat
  | .calling attempt _ _ => 2 * (maxAttempts - attempt) + 1
  | .pausing attempt _ => 2 * (maxAttempts - attempt)

def Next.stepsLeft (maxAttempts : Nat) : Next → Nat
  | .poll => 2 * maxAttempts + 3
  | .absorb rest _ => (2 * maxAttempts + 1) * rest.length + (2 * maxAttempts + 4)
  | .stop => 1

/-- How many steps a cancelled worker can still make. -/
def Phase.stepsLeft (maxAttempts : Nat) : Phase φ ψ → Nat
  | .starting => 2 * maxAttempts + 4
  | .polling | .fetching .. | .stalled | .pausing _ => 2 * maxAttempts + 3
  | .absorbing rest _ => (2 * maxAttempts + 1) * rest.length + (2 * maxAttempts + 4)
  | .writing flush w => writingStepsLeft maxAttempts w + flush.next.stepsLeft maxAttempts
  | .draining => 2 * maxAttempts + 2
  | .stopping => 1
  | .stopped | .crashed => 0

variable {setup : Setup σ τ φ ψ} {now : Instant} {w w' : Worker φ ψ} {journal : List Happening}

theorem Next.phase_stepsLeft (maxAttempts : Nat) (next : Next) :
    (next.phase : Phase φ ψ).stepsLeft maxAttempts = next.stepsLeft maxAttempts := by
  cases next <;> rfl

theorem Next.stepsLeft_pos (maxAttempts : Nat) (next : Next) : 0 < next.stepsLeft maxAttempts := by
  cases next with
  | poll | absorb => exact Nat.succ_pos _
  | stop => exact Nat.one_pos

theorem Phase.stepsLeft_pos (maxAttempts : Nat) (hRuns : w.hasEnded = false) :
    0 < w.phase.stepsLeft maxAttempts := by
  cases hw : w.phase with
  | stopped | crashed => simp [hasEnded, hw] at hRuns
  | writing flush writing => exact Nat.add_pos_right _ (flush.next.stepsLeft_pos maxAttempts)
  | stopping => exact Nat.one_pos
  | _ => exact Nat.succ_pos _

/-- Every step of a cancelled worker brings it closer to its end. -/
theorem Stride.stepsLeft_lt (h : Stride setup now true w w' journal) (hRuns : w.hasEnded = false)
    {failures : List StoreError} {calls : List Happening}
    (hUnderway : w.phase.Underway setup.settings.retry.maxAttempts failures calls) :
    w'.phase.stepsLeft setup.settings.retry.maxAttempts
      < w.phase.stepsLeft setup.settings.retry.maxAttempts := by
  have hPos := maxAttempts_pos setup.settings.retry
  cases h with
  | expire hStays | ask _ hStays | resume _ _ _ hStays | rest _ _ hStays | flush hStays =>
    cases hStays
  | start | finish | stop | empty =>
    simp only [Phase.stepsLeft, List.length_nil]
    omega
  | @leave p b hHeedful hLeaves =>
    cases p with
    | polling | fetching _ _ | pausing _ | stalled => exact Nat.lt_succ_self _
    | _ => cases hHeedful
  | take | refuse =>
    simp only [Phase.stepsLeft, List.length_cons, Nat.mul_succ]
    omega
  | fill =>
    simp only [Phase.stepsLeft, writingStepsLeft, Next.stepsLeft, List.length_cons, Nat.mul_succ]
    omega
  | lastFlush =>
    simp only [Phase.stepsLeft, writingStepsLeft, Next.stepsLeft]
    omega
  | retry b flush hRetries hJournal =>
    cases hRetries with
    | pause due call later hLess =>
      simp only [Phase.stepsLeft, writingStepsLeft]
      omega
    | again attempt due later call =>
      obtain ⟨rfl, hLess, -⟩ := hUnderway
      simp only [Phase.stepsLeft, writingStepsLeft, nextAttempt_eq hLess]
      omega
  | settle b flush w hPlain =>
    have hWriting : 0 < writingStepsLeft setup.settings.retry.maxAttempts w := by
      cases w with
      | calling attempt due call => exact Nat.succ_pos _
      | pausing attempt due =>
        obtain ⟨rfl, hLess, -⟩ := hUnderway
        simp only [writingStepsLeft]
        omega
    rw [Next.phase_stepsLeft, Phase.stepsLeft]
    omega
  | ended hEnded =>
    rw [hEnded] at hRuns
    cases hRuns

end StepsLeft

/-- The attempts that were made so far are all for the batch that is being written. -/
theorem Phase.Underway.insert_mem {phase : Phase φ ψ} {maxAttempts : Nat}
    {failures : List StoreError} {tried : List Happening}
    (h : phase.Underway maxAttempts failures tried) {rows : List Row}
    (hInsert : .insert rows ∈ tried) : phase.isWriting = true ∧ rows = phase.written.rows := by
  have hFailed : ∀ {batch : Batch}, .insert rows ∈ failedAttempts batch.rows failures →
      rows = batch.rows := by
    intro batch hMem
    obtain ⟨e, -, hEntry⟩ := List.mem_flatMap.mp hMem
    simpa using hEntry
  match phase with
  | .writing flush (.calling attempt due call) =>
    obtain ⟨-, -, rfl⟩ := h
    obtain hMem | hLast := List.mem_append.mp hInsert
    · exact ⟨rfl, hFailed hMem⟩
    · cases List.mem_singleton.mp hLast
      exact ⟨rfl, rfl⟩
  | .writing flush (.pausing attempt due) =>
    obtain ⟨-, -, rfl⟩ := h
    exact ⟨rfl, hFailed hInsert⟩
  | .starting | .polling | .fetching .. | .stalled | .pausing _ | .absorbing .. | .draining
  | .stopping | .stopped | .crashed =>
    obtain ⟨-, rfl⟩ := h
    cases hInsert

/-- A cancelled worker that writes nothing need not wait. -/
theorem isReady_of_cancelled {w : Worker φ ψ} (hWriting : w.phase.isWriting = false)
    (hRuns : w.hasEnded = false) (now : Instant) : w.isReady now true = true := by
  cases hw : w.phase with
  | writing _ _ => simp [hw] at hWriting
  | stopped | crashed => simp [hasEnded, hw] at hRuns
  | _ => simp [isReady, hw]

/-- A worker that does not write and has not ended leads no other way than on. -/
theorem Stride.runs {setup : Setup σ τ φ ψ} {now : Instant} {w w' : Worker φ ψ}
    {journal : List Happening} (h : Stride setup now true w w' journal)
    (hRuns : w.hasCrashed = false) : w'.hasCrashed = false := by
  cases h with
  | ask _ hStays | resume _ _ _ hStays => cases hStays
  | settle b flush w hPlain => cases hNext : flush.next <;> rfl
  | ended hEnded => exact hRuns
  | _ => rfl

namespace Timed

/-- The worker has been cancelled and goes on from `before`, of which it did these deeds: it fetches
nothing, it settles the batches of its plan in order, and it closes in no time if it writes nothing. -/
structure Closes (setup : Setup σ τ φ ψ) (most : φ → Nat) (before : Timed σ τ φ ψ)
    (deeds : List Deed) (new : List (Instant × Happening)) (more : List Deed)
    (c : Timed σ τ φ ψ) : Prop where
  cancelled : c.scene.cancelled = true
  runs : c.scene.worker.hasCrashed = false
  snug : c.scene.worker.Snug most setup.settings.batchSize
  journal : c.journal = before.journal ++ new
  fetchless : ∀ e ∈ new, e.2.isFetching = false
  planned : ∀ e ∈ new, ∀ rows, e.2 = .insert rows → ∃ b ∈ before.scene.worker.plan, rows = b.rows
  chronicle : Chronicle setup.settings c.scene.worker (c.journal.map Prod.snd) (deeds ++ more)
  allows : ∀ d ∈ more, Custody.Allows setup.settings d
  settled : Deed.settledBatches more ++ c.scene.worker.plan = before.scene.worker.plan
  prompt : before.scene.worker.phase.isWriting = false →
    (before.now, before.scene.worker.closing) ∈ new ∨
      c.now = before.now ∧ c.scene.worker.phase.isWriting = false ∧
        c.scene.worker.hasEnded = false ∧ c.scene.worker.pending = before.scene.worker.pending

section Closes

variable {setup : Setup σ τ φ ψ} {most : φ → Nat} {before c : Timed σ τ φ ψ} {deeds : List Deed}
  {new : List (Instant × Happening)} {more : List Deed}

theorem closes_self (hCancelled : before.scene.cancelled = true)
    (hRuns : before.scene.worker.hasEnded = false)
    (hSnug : before.scene.worker.Snug most setup.settings.batchSize)
    (hChronicle : Chronicle setup.settings before.scene.worker (before.journal.map Prod.snd) deeds) :
    Closes setup most before deeds [] [] before := by
  refine ⟨hCancelled, ?_, hSnug, (List.append_nil _).symm, List.forall_mem_nil _,
    List.forall_mem_nil _, ?_, List.forall_mem_nil _, rfl,
    fun hWriting => .inr ⟨rfl, hWriting, hRuns, rfl⟩⟩
  · cases hw : before.scene.worker.phase with
    | crashed => simp [hasEnded, hw] at hRuns
    | _ => simp [hasCrashed, hw]
  · rwa [List.append_nil]

theorem Closes.moved (h : Closes setup most before deeds new more c)
    (hModest : setup.intake.Modest most) :
    ∃ later added,
      Closes setup most before deeds (new ++ later) (more ++ added) (c.moved setup) := by
  have hStride := step_stride setup c.now c.scene
  rw [h.cancelled] at hStride
  obtain ⟨added, hMove, hChronicle, -⟩ := step_chronicle setup c.now c.scene h.chronicle
  have hNone : Deed.allArrivals added = [] :=
    (h.chronicle.arrivals_new hChronicle).symm.trans (arrivals_of_not_fetching hStride.not_fetching)
  -- What leaves the plan is the batch that the move settles.
  have hSettled : Deed.settledBatches added ++ (step setup c.now c.scene).1.worker.plan
      = c.scene.worker.plan := by
    have hBalance := hMove.parcels_eq
    rw [hNone, List.append_nil, ← flatten_plan, ← flatten_plan] at hBalance
    rw [hMove.settledBatches_eq]
    obtain hPlan | ⟨b, hBatch, hPlan, hDone⟩ := hStride.plan_eq h.snug
    · rw [hPlan] at hBalance
      rw [hPlan, List.self_eq_append_left.mp hBalance]
      rfl
    · rw [hPlan, hDone, List.flatten_singleton, List.flatten_nil, List.append_nil] at hBalance
      rw [hPlan, hDone, ← hBalance, Batch.present_of_ne hBatch]
      rfl
  refine ⟨(step setup c.now c.scene).2.map (c.now, ·), added, ?_⟩
  refine ⟨step_cancelled setup c.now h.cancelled, hStride.runs h.runs, hStride.snug hModest h.snug,
    ?_, ?_, ?_, ?_, ?_, ?_, ?_⟩
  · rw [← List.append_assoc, ← h.journal]
    rfl
  · intro e he
    obtain hOld | hLater := List.mem_append.mp he
    · exact h.fetchless e hOld
    · obtain ⟨entry, hEntry, rfl⟩ := List.mem_map.mp hLater
      exact hStride.not_fetching entry hEntry
  · intro e he rows hRows
    obtain hOld | hLater := List.mem_append.mp he
    · exact h.planned e hOld rows hRows
    · obtain ⟨entry, hEntry, rfl⟩ := List.mem_map.mp hLater
      obtain rfl : entry = .insert rows := hRows
      obtain ⟨b, hb, hSame⟩ := hStride.insert_planned h.snug hEntry
      exact ⟨b, h.settled ▸ List.mem_append_right _ hb, hSame⟩
  · rw [moved_journal, ← List.append_assoc]
    exact hChronicle
  · exact fun d hd => (List.mem_append.mp hd).elim (h.allows d) (hMove.allows d)
  · rw [Deed.settledBatches_append, List.append_assoc, ← h.settled]
    exact congrArg (Deed.settledBatches more ++ ·) hSettled
  · intro hWriting
    obtain hClosed | ⟨hNow, hWriting', hRuns, hPending⟩ := h.prompt hWriting
    · exact .inl (List.mem_append_left _ hClosed)
    obtain hClosed | ⟨hWriting'', hRuns', hPending'⟩ := hStride.closing_mem h.snug hWriting' hRuns
    · refine .inl (List.mem_append_right _ (List.mem_map.mpr ⟨_, hClosed, ?_⟩))
      rw [hNow, closing, closing, hPending]
    · exact .inr ⟨hNow, hWriting'', hRuns', hPending'.trans hPending⟩

/-- Time passes only while a batch is written. -/
theorem Closes.wait (h : Closes setup most before deeds new more c) {later : Instant}
    (hWait : c.mayWait later = true) :
    Closes setup most before deeds new more { c with now := later } := by
  refine ⟨h.cancelled, h.runs, h.snug, h.journal, h.fetchless, h.planned, h.chronicle, h.allows,
    h.settled, fun hWriting => ?_⟩
  obtain hClosed | ⟨-, hWriting', hRuns, -⟩ := h.prompt hWriting
  · exact .inl hClosed
  · obtain ⟨hReady, -⟩ := mayWait_iff.mp hWait
    rw [isReady, h.cancelled, isReady_of_cancelled hWriting' hRuns] at hReady
    cases hReady

theorem Closes.others (h : Closes setup most before deeds new more c) (source : σ) (store : τ)
    (counters : Counters) :
    Closes setup most before deeds new more (c.disturbed source store counters) :=
  ⟨h.cancelled, h.runs, h.snug, h.journal, h.fetchless, h.planned, h.chronicle, h.allows, h.settled,
    h.prompt⟩

theorem Closes.cancel (h : Closes setup most before deeds new more c) :
    Closes setup most before deeds new more
      { c with scene := { c.scene with cancelled := true } } :=
  ⟨rfl, h.runs, h.snug, h.journal, h.fetchless, h.planned, h.chronicle, h.allows, h.settled,
    h.prompt⟩

theorem run_closes (act : α → σ → σ) (hModest : setup.intake.Modest most)
    (h : Closes setup most before deeds new more c) (after : List (Turn α τ)) :
    ∃ new more, Closes setup most before deeds new more (run setup act after c) := by
  refine run_keeps (P := fun c => ∃ new more, Closes setup most before deeds new more c)
    ?_ ?_ ?_ ?_ act ⟨new, more, h⟩ after
  · rintro c ⟨new, more, h⟩ -
    obtain ⟨later, added, hMoved⟩ := h.moved hModest
    exact ⟨_, _, hMoved⟩
  · rintro c later ⟨new, more, h⟩ hWait
    exact ⟨new, more, h.wait hWait⟩
  · rintro c ⟨new, more, h⟩
    exact ⟨new, more, h.cancel⟩
  · rintro c source store counters ⟨new, more, h⟩
    exact ⟨new, more, h.others source store counters⟩

/-- The turns that it takes at most until the worker stops. -/
def goesLeft (setup : Setup σ τ φ ψ) (c : Timed σ τ φ ψ) : Nat :=
  2 * c.scene.worker.phase.stepsLeft setup.settings.retry.maxAttempts
    - if c.isReady then 1 else 0

/-- A turn in which the worker moves or time passes until it can. -/
def Turn.isGo : Turn α τ → Bool
  | .go => true
  | _ => false

theorem Closes.goesLeft_go (act : α → σ → σ) (h : Closes setup most before deeds new more c)
    (hRuns : c.scene.worker.hasEnded = false) :
    (c.turn setup act (.go : Turn α τ)).goesLeft setup < c.goesLeft setup := by
  simp only [turn]
  cases hReady : c.isReady with
  | true =>
    have hStride := step_stride setup c.now c.scene
    rw [h.cancelled] at hStride
    obtain ⟨-, failures, calls, hUnderway, -⟩ := h.chronicle
    have hLess : (c.moved setup).scene.worker.phase.stepsLeft setup.settings.retry.maxAttempts
        < c.scene.worker.phase.stepsLeft setup.settings.retry.maxAttempts :=
      hStride.stepsLeft_lt hRuns hUnderway
    simp only [if_true, goesLeft, hReady]
    omega
  | false =>
    have hPos := Phase.stepsLeft_pos setup.settings.retry.maxAttempts hRuns
    cases hw : c.scene.worker.phase with
    | writing flush w =>
      have hDue : c.scene.worker.due? = some w.due := by simp [due?, hw]
      have hLater : ({ c with now := w.due } : Timed σ τ φ ψ).isReady = true := by
        simp [isReady, Worker.isReady, hw]
      simp only [Bool.false_eq_true, if_false, hDue, Option.getD_some, goesLeft, hReady, hLater,
        if_true]
      omega
    | _ =>
      have hAlways := isReady_of_cancelled (by simp [hw]) hRuns c.now
      rw [isReady, h.cancelled, hAlways] at hReady
      cases hReady

/-- An ended worker goes nowhere. -/
theorem turn_go_ended (setup : Setup σ τ φ ψ) (act : α → σ → σ)
    (hEnded : c.scene.worker.hasEnded = true) : c.turn setup act (.go : Turn α τ) = c := by
  obtain hw | hw := ended_cases hEnded
  · simp [turn, isReady, Worker.isReady, due?, hw]
  · simp [turn, isReady, Worker.isReady, due?, hw]

theorem Closes.goesLeft_other (act : α → σ → σ) (h : Closes setup most before deeds new more c)
    {t : Turn α τ} (hOther : t.isGo = false) :
    (c.turn setup act t).goesLeft setup ≤ c.goesLeft setup := by
  cases t with
  | go => cases hOther
  | wait later =>
    simp only [turn]
    split
    · rename_i hWait
      obtain ⟨hReady, -⟩ := mayWait_iff.mp hWait
      simp only [goesLeft, hReady, Bool.false_eq_true, if_false]
      omega
    · exact Nat.le_refl _
  | cancel =>
    simp only [turn, goesLeft, isReady, h.cancelled]
    exact Nat.le_refl _
  | outside _ | store _ | counters _ => exact Nat.le_refl _

/-- After so many turns the worker has stopped. -/
theorem Closes.run_stopped (act : α → σ → σ) (hModest : setup.intake.Modest most)
    (h : Closes setup most before deeds new more c) {after : List (Turn α τ)}
    (hEnough : c.goesLeft setup ≤ after.countP Turn.isGo) :
    (run setup act after c).scene.worker.phase = .stopped := by
  have hStopped : ∀ c new more, Closes setup most before deeds new more c →
      c.scene.worker.hasEnded = true → c.scene.worker.phase = .stopped := by
    intro c new more h hEnded
    have hRuns := h.runs
    obtain hw | hw := ended_cases hEnded
    · exact hw
    · simp [hasCrashed, hw] at hRuns
  induction after generalizing c new more with
  | nil =>
    cases hRuns : c.scene.worker.hasEnded with
    | true => exact hStopped c new more h hRuns
    | false =>
      have hPos := Phase.stepsLeft_pos setup.settings.retry.maxAttempts hRuns
      simp only [goesLeft, List.countP_nil] at hEnough
      split at hEnough <;> omega
  | cons t after ih =>
    obtain ⟨later, added, hAfter⟩ := run_closes act hModest h [t]
    apply ih (c := c.turn setup act t) hAfter
    rw [List.countP_cons] at hEnough
    cases hGo : t.isGo with
    | false =>
      rw [hGo] at hEnough
      exact Nat.le_trans (h.goesLeft_other act hGo) hEnough
    | true =>
      rw [hGo, if_pos rfl] at hEnough
      cases t with
      | go =>
        cases hRuns : c.scene.worker.hasEnded with
        | false =>
          have hLess := h.goesLeft_go act hRuns
          omega
        | true =>
          have hNone : c.goesLeft setup = 0 := by
            rw [goesLeft, hStopped c new more h hRuns, Phase.stepsLeft, Nat.mul_zero, Nat.zero_sub]
          rw [turn_go_ended setup act hRuns, hNone]
          exact Nat.zero_le _
      | _ => cases hGo

end Closes

/-- The worker has stopped. Since `before`, when these deeds were done, it has fetched nothing and has
settled the batch that it was writing, and then all that it had in one batch more. If it was writing
nothing it began to write, or stopped, at once. -/
structure Stops (setup : Setup σ τ φ ψ) (before : Timed σ τ φ ψ) (deeds : List Deed)
    (new : List (Instant × Happening)) (more : List Deed) (c : Timed σ τ φ ψ) : Prop where
  stopped : c.scene.worker.phase = .stopped
  empty : c.scene.worker.buffer.batch = []
  calls : Journal.calls (c.journal.map Prod.snd) = (deeds ++ more).flatMap Deed.calls
  batches : Deed.settledBatches more
    = before.scene.worker.phase.written.present ++ before.scene.worker.pending.present
  inserts : ∀ rows, .insert rows ∈ more.flatMap Deed.calls →
    ∃ b ∈ Deed.settledBatches more, rows = b.rows
  settles : ∀ d ∈ more, d.batch ≠ [] → d.SettlesBatch setup.settings.retry.maxAttempts
  prompt : before.scene.worker.phase.isWriting = false →
    (before.now, before.scene.worker.closing) ∈ new

/-- However the run goes on, nothing is fetched, and after enough turns the worker has stopped. The
calls made so far are those of deeds that are done, and of the batch that is being written. -/
def StopsGracefully (setup : Setup σ τ φ ψ) (act : α → σ → σ) (c : Timed σ τ φ ψ) : Prop :=
  ∃ enough deeds tried,
    Journal.calls (c.journal.map Prod.snd) = deeds.flatMap Deed.calls ++ tried ∧
    (c.scene.worker.phase.isWriting = false → tried = []) ∧
    ∀ after : List (Turn α τ), ∃ new,
      (run setup act after c).journal = c.journal ++ new ∧
      (∀ e ∈ new, e.2.isFetching = false) ∧
      (enough ≤ after.countP Turn.isGo → ∃ more, Stops setup c deeds new more (run setup act after c))

section Run

theorem run_snug (setup : Setup σ τ φ ψ) (act : α → σ → σ) {most : φ → Nat}
    (hModest : setup.intake.Modest most) (source : σ) (store : τ) (turns : List (Turn α τ)) :
    (run setup act turns (start setup.settings source store)).scene.worker.Snug most
      setup.settings.batchSize := by
  refine run_keeps (P := fun c => c.scene.worker.Snug most setup.settings.batchSize) ?_ ?_ ?_ ?_ act
    (snug_idle most setup.settings 0) turns
  · exact fun c h _ => (step_stride setup c.now c.scene).snug hModest h
  · exact fun c later h _ => h
  · exact fun c h => h
  · exact fun c source store counters h => h

theorem run_chronicle (setup : Setup σ τ φ ψ) (act : α → σ → σ) (source : σ) (store : τ)
    (turns : List (Turn α τ)) :
    let c := run setup act turns (start setup.settings source store)
    ∃ deeds, Chronicle setup.settings c.scene.worker (c.journal.map Prod.snd) deeds := by
  intro c
  obtain ⟨moves, hMoves⟩ := exists_run_eq_untimed setup act turns
    (start setup.settings source store : Timed σ τ φ ψ)
  have hCourse : ∃ deeds, Chronicle setup.settings
      (Course.run setup act moves (.start setup.settings source store)).scene.worker
      (Course.run setup act moves (.start setup.settings source store)).journal deeds ∧ True :=
    Course.run_from_start (I := fun _ _ _ => True) (fun _ _ => trivial) (fun _ _ => trivial)
      trivial moves
  obtain ⟨deeds, hChronicle, -⟩ := hCourse
  refine ⟨deeds, ?_⟩
  change Chronicle setup.settings c.untimed.scene.worker c.untimed.journal deeds
  rw [show c.untimed = _ from hMoves]
  exact hChronicle

end Run

/-- A worker that is cancelled at any point of a run before a modest source stops gracefully. -/
theorem stops_gracefully (setup : Setup σ τ φ ψ) (act : α → σ → σ) {most : φ → Nat}
    (hModest : setup.intake.Modest most) (source : σ) (store : τ) (turns : List (Turn α τ))
    (hCancelled :
      (run setup act turns (start setup.settings source store)).scene.cancelled = true)
    (hRuns :
      (run setup act turns (start setup.settings source store)).scene.worker.hasEnded = false) :
    StopsGracefully setup act (run setup act turns (start setup.settings source store)) := by
  have hSnug := run_snug setup act hModest source store turns
  obtain ⟨deeds, hChronicle⟩ := run_chronicle setup act source store turns
  generalize run setup act turns (start setup.settings source store) = c at *
  have hSelf := closes_self hCancelled hRuns hSnug hChronicle
  obtain ⟨-, failures, tried, hUnderway, hCalls⟩ := hChronicle
  refine ⟨c.goesLeft setup, deeds, tried, hCalls, ?_, fun after => ?_⟩
  · intro hWriting
    refine hUnderway.eq_nil fun flush writing hPhase => ?_
    simp [hPhase] at hWriting
  obtain ⟨new, more, hCloses⟩ := run_closes act hModest hSelf after
  refine ⟨new, hCloses.journal, hCloses.fetchless, fun hEnough => ⟨more, ?_⟩⟩
  have hStopped := hSelf.run_stopped act hModest hEnough
  have hEmpty : (run setup act after c).scene.worker.buffer.batch = [] := by
    have hFits := hCloses.snug.2
    rwa [hStopped] at hFits
  have hSettled : Deed.settledBatches more = c.scene.worker.plan := by
    have hPlan : (run setup act after c).scene.worker.plan = [] := by
      rw [plan, pending, hStopped, hEmpty]
      rfl
    rw [← hCloses.settled, hPlan, List.append_nil]
  have hAll := hCloses.chronicle.calls_eq (by simp [hStopped])
  refine ⟨hStopped, hEmpty, hAll, hSettled, ?_, ?_, ?_⟩
  · intro rows hInsert
    rw [hCloses.journal, List.map_append, calls_append, hCalls, List.flatMap_append,
      List.append_assoc] at hAll
    rw [← List.append_cancel_left hAll] at hInsert
    rw [hSettled]
    obtain hTried | hNew := List.mem_append.mp hInsert
    · obtain ⟨hWriting, rfl⟩ := hUnderway.insert_mem hTried
      exact ⟨_, written_mem_plan hSnug hWriting, rfl⟩
    · obtain ⟨e, he, hRows⟩ := List.mem_map.mp (mem_of_mem_calls hNew)
      exact hCloses.planned e he rows hRows
  · exact fun d hd hBatch => Deed.settlesBatch_of_allows (hCloses.allows d hd) hBatch
  · intro hWriting
    obtain hClosed | ⟨-, -, hNot, -⟩ := hCloses.prompt hWriting
    · exact hClosed
    · simp [hasEnded, hStopped] at hNot

def twoEvents : Queue := (({} : Queue).publish [123, 125]).publish [123, 125]

def twoEventsSetup : Setup Queue PlannedStore Waiting (Option StoreError) :=
  ⟨{}, Queue.source, PlannedStore.store⟩

/-- The worker is cancelled while it waits for more. -/
def cancelledInFetch : List (Turn Empty PlannedStore) := List.replicate 6 .go ++ [.cancel]

theorem two_events_flushed_at_cancel :
    let c := run twoEventsSetup (fun a : Empty => a.elim) cancelledInFetch (start {} twoEvents {})
    c.scene.cancelled = true ∧ c.scene.worker.hasEnded = false ∧
    c.scene.worker.phase.isWriting = false ∧ c.scene.worker.pending.length = 2 ∧
    StopsGracefully twoEventsSetup (fun a : Empty => a.elim) c := by
  refine ⟨by rfl, by rfl, by rfl, by rfl, ?_⟩
  exact stops_gracefully twoEventsSetup _ Queue.modest twoEvents {} cancelledInFetch (by rfl)
    (by rfl)

end Timed

end Worker

end EventIngest
