import EventIngest.Proofs.Within
/-!
# Strides

All that one step can do with the phase and the buffer of a worker, with what it writes into the
journal and the conditions under which it does so. Custody tells what a step settles; a stride tells
where the worker goes, when it restarts its timer and which calls it begins.
-/
namespace EventIngest

variable {σ τ φ ψ : Type}

/-- The entry neither asks for deliveries or brings any, nor begins an attempt to insert rows. -/
@[simp] def Happening.isPlain : Happening → Bool
  | .fetch .. | .fetched _ | .fetchStalled | .insert _ => false
  | _ => true

namespace Journal

def Plain (journal : List Happening) : Prop := ∀ h ∈ journal, h.isPlain = true

theorem plain_nil : Plain [] := List.forall_mem_nil _

theorem plain_append {a b : List Happening} : Plain (a ++ b) ↔ Plain a ∧ Plain b :=
  List.forall_mem_append

/-- Notices are plain. -/
theorem plain_of_calls {journal : List Happening} (h : Plain (calls journal)) : Plain journal := by
  intro entry hEntry
  cases hCall : entry.isCall with
  | true => exact h entry (List.mem_filter.mpr ⟨hEntry, hCall⟩)
  | false =>
    cases entry with
    | notice n => rfl
    | _ => cases hCall

theorem Plain.arrivals {journal : List Happening} (h : Plain journal) : arrivals journal = [] := by
  refine List.flatMap_eq_nil_iff.mpr fun entry hEntry => ?_
  have hPlain := h entry hEntry
  cases entry with
  | fetched _ => cases hPlain
  | _ => rfl

end Journal

open Journal

theorem Deed.plain_settling (entry : Handle → Answer → Happening)
    (hEntry : ∀ h answer, (entry h answer).isPlain = true) (parcels : List (Parcel × Answer))
    (answer : Answer) :
    Plain (parcels.map (fun p => entry p.1.handle p.2) ++ [.commit answer]) := by
  refine plain_append.mpr ⟨?_, List.forall_mem_singleton.mpr rfl⟩
  intro h hh
  obtain ⟨p, -, rfl⟩ := List.mem_map.mp hh
  exact hEntry _ _

namespace Desk

variable (intake : Source σ φ) {d : Desk σ} (hStart : d.journal = [])

include hStart

theorem ackAll_plain (b : Batch) : Plain (d.ackAll intake b).journal := by
  refine plain_of_calls ?_
  rw [ackAll_calls, hStart, List.append_assoc]
  exact Deed.plain_settling .ack (fun _ _ => rfl) _ _

theorem nakAll_plain (b : Batch) (failure : InsertError) :
    Plain (d.nakAll intake b failure).journal := by
  refine plain_of_calls ?_
  rw [nakAll_calls, hStart, List.append_assoc]
  exact Deed.plain_settling .nak (fun _ _ => rfl) _ _

theorem commit_plain : Plain (d.commit intake).journal := by
  refine plain_of_calls ?_
  rw [commit_calls, hStart]
  exact List.forall_mem_singleton.mpr rfl

theorem reject_plain (maxDeliver : Nat) (h : Handle) (m : Malformed) :
    Plain (d.reject intake maxDeliver h m).journal := by
  refine plain_of_calls ?_
  rw [reject_calls, hStart]
  match (intake.refuse maxDeliver h m d.source).1 with
  | none | some (.ok _) | some (.error _) => simp [Plain, Deed.calls, Deed.rejection]

end Desk

namespace Fetch

@[simp] def phase (now : Instant) : Fetch φ → Worker.Phase φ ψ
  | .answered (.ok deliveries) => .absorbing deliveries false
  | .answered (.error _) => .pausing (now + Worker.fetchPause)
  | .waiting time call => .fetching (now + time) call
  | .stalled => .stalled
  | .crashed => .crashed

@[simp] def entries : Fetch φ → List Happening
  | .answered (.ok deliveries) => [.fetched (.ok deliveries)]
  | .answered (.error e) => [.fetched (.error e), .notice (.fetchFailed e)]
  | .stalled => [.fetchStalled]
  | .waiting .. | .crashed => []

theorem not_mem_entries (f : Fetch φ) :
    (∀ max wait, .fetch max wait ∉ f.entries) ∧ ∀ rows, .insert rows ∉ f.entries := by
  match f with
  | .answered (.ok _) | .answered (.error _) | .waiting .. | .stalled | .crashed => simp

end Fetch

namespace Worker

/-- The phases in which a worker notices that it is cancelled. -/
@[simp] def Phase.isHeedful : Phase φ ψ → Bool
  | .polling | .fetching .. | .pausing _ | .stalled => true
  | _ => false

@[simp] def Phase.isWriting : Phase φ ψ → Bool
  | .writing .. => true
  | _ => false

theorem ended_cases {w : Worker φ ψ} (h : w.hasEnded = true) :
    w.phase = .stopped ∨ w.phase = .crashed := by
  cases hw : w.phase with
  | stopped => exact .inl rfl
  | crashed => exact .inr rfl
  | _ => simp [hasEnded, hw] at h

@[simp] theorem Next.phase_coming (next : Next) : (next.phase : Phase φ ψ).coming = next.coming := by
  cases next <;> rfl

/-- How the writing of a batch goes on after a failed attempt that was not the last, and after the
pause. -/
inductive Retries (retry : Retry) : Writing ψ → Writing ψ → Prop where
  | pause {attempt : Nat} (due : Instant) (call : ψ) (later : Instant)
      (hLess : attempt < retry.maxAttempts) :
      Retries retry (.calling attempt due call) (.pausing attempt later)
  | again (attempt : Nat) (due later : Instant) (call : ψ) :
      Retries retry (.pausing attempt due) (.calling (Retry.nextAttempt attempt) later call)

/-- A step of a worker, cancelled or not, with its journal. -/
inductive Stride (setup : Setup σ τ φ ψ) (now : Instant) (cancelled : Bool) :
    Worker φ ψ → Worker φ ψ → List Happening → Prop where
  | start (b) :
      Stride setup now cancelled ⟨.starting, b⟩ ⟨.polling, b.restartTimer now⟩
        [.notice .workerStarted]
  | leave {p} (b) (hHeedful : p.isHeedful = true) (hLeaves : p = .stalled ∨ cancelled = true) :
      Stride setup now cancelled ⟨p, b⟩ ⟨.draining, b⟩ []
  | expire {b : Buffer} (hStays : cancelled = false) (hDue : b.deadline ≤ now)
      (hEmpty : b.batch = []) :
      Stride setup now cancelled ⟨.polling, b⟩ ⟨.polling, b.emptied now⟩ []
  | ask (s) {b : Buffer} (hStays : cancelled = false) (hDue : now < b.deadline) {wait : Duration}
      (hWait : wait = min setup.settings.fetchWait (b.deadline - now)) {f : Fetch φ}
      (hFetch : f = (setup.intake.fetch s b.room wait).1) :
      Stride setup now cancelled ⟨.polling, b⟩ ⟨f.phase now, b⟩ (.fetch b.room wait :: f.entries)
  | resume (s) (b) (due : Instant) {call : φ} (hStays : cancelled = false) {f : Fetch φ}
      (hFetch : f = (setup.intake.resume s call).1) :
      Stride setup now cancelled ⟨.fetching due call, b⟩ ⟨f.phase now, b⟩ f.entries
  | rest (b) (due : Instant) (hStays : cancelled = false) :
      Stride setup now cancelled ⟨.pausing due, b⟩ ⟨.polling, b⟩ []
  | take {b : Buffer} {d : Delivery} {p : Parcel} (rest rejected) (hParcel : d.parcel? = some p)
      (hRoom : b.batch.length + 1 < b.capacity) :
      Stride setup now cancelled ⟨.absorbing (d :: rest) rejected, b⟩
        ⟨.absorbing rest rejected, b.push p⟩ []
  | fill {b : Buffer} {d : Delivery} {p : Parcel} (rest rejected) (hParcel : d.parcel? = some p)
      (hFull : b.capacity ≤ b.batch.length + 1) (due call) :
      Stride setup now cancelled ⟨.absorbing (d :: rest) rejected, b⟩
        ⟨.writing ⟨b.batch ++ [p], now, .absorb rest rejected⟩ (.calling 1 due call), b.emptied now⟩
        [.insert (Batch.rows (b.batch ++ [p]))]
  | refuse (b) {d : Delivery} (rest rejected) (hRefusal : d.parcel? = none) {journal}
      (hPlain : Plain journal) :
      Stride setup now cancelled ⟨.absorbing (d :: rest) rejected, b⟩ ⟨.absorbing rest true, b⟩
        journal
  | finish (b) (rejected) {journal} (hPlain : Plain journal) :
      Stride setup now cancelled ⟨.absorbing [] rejected, b⟩ ⟨.polling, b⟩ journal
  | flush {b : Buffer} (hStays : cancelled = false) (hDue : b.deadline ≤ now) (hBatch : b.batch ≠ [])
      (due call) :
      Stride setup now cancelled ⟨.polling, b⟩
        ⟨.writing ⟨b.batch, now, .poll⟩ (.calling 1 due call), b.emptied now⟩
        [.insert b.batch.rows]
  | lastFlush {b : Buffer} (hBatch : b.batch ≠ []) (due call) :
      Stride setup now cancelled ⟨.draining, b⟩
        ⟨.writing ⟨b.batch, now, .stop⟩ (.calling 1 due call), b.emptied now⟩
        [.notice (.lastFlush b.batch.length), .insert b.batch.rows]
  | retry (b) (flush : Flush) {w w' journal} (hRetries : Retries setup.settings.retry w w')
      (hJournal : Plain journal ∨ journal = [.insert flush.batch.rows]) :
      Stride setup now cancelled ⟨.writing flush w, b⟩ ⟨.writing flush w', b⟩ journal
  | settle (b) (flush : Flush) (w) {journal} (hPlain : Plain journal) :
      Stride setup now cancelled ⟨.writing flush w, b⟩ ⟨flush.next.phase, b.restartTimer now⟩ journal
  | empty {b : Buffer} (hEmpty : b.batch = []) :
      Stride setup now cancelled ⟨.draining, b⟩ ⟨.stopping, b⟩ []
  | stop (b) : Stride setup now cancelled ⟨.stopping, b⟩ ⟨.stopped, b⟩ [.notice .workerStopped]
  | ended {w : Worker φ ψ} (hEnded : w.hasEnded = true) : Stride setup now cancelled w w []

variable (setup : Setup σ τ φ ψ) (now : Instant)

theorem onFetch_worker (s : Scene σ τ φ ψ) (f : Fetch φ) :
    (onFetch now s f).1.worker = ⟨f.phase now, s.worker.buffer⟩ ∧ (onFetch now s f).2 = f.entries := by
  match f with
  | .answered (.ok _) | .answered (.error _) | .waiting .. | .stalled | .crashed => exact ⟨rfl, rfl⟩

/-- A flush of a batch that is not empty begins to write it. -/
theorem beginFlush_worker (next : Next) (s : Scene σ τ φ ψ) (h : s.worker.buffer.batch ≠ []) :
    ∃ due call, (beginFlush setup now next s).1.worker
        = ⟨.writing ⟨s.worker.buffer.batch, now, next⟩ (.calling 1 due call),
            s.worker.buffer.emptied now⟩ ∧
      (beginFlush setup now next s).2 = [.insert s.worker.buffer.batch.rows] := by
  have hBatch : s.worker.buffer.batch.isEmpty = false := by
    rw [List.isEmpty_eq_false_iff]
    exact h
  rcases hInsert : setup.store.insert s.store now s.worker.buffer.batch.rows
    with ⟨delay, call, store⟩
  have hFirst : Retry.nextAttempt 0 = 1 := rfl
  refine ⟨now + delay, call, ?_, ?_⟩
  · simp only [beginFlush, hBatch, Bool.false_eq_true, if_false, Writing.start, Writing.call,
      Flush.rows_eq, hInsert, hFirst]
    rfl
  · simp only [beginFlush, hBatch, Bool.false_eq_true, if_false, Writing.start, Writing.call,
      Flush.rows_eq]

theorem beginFlush_empty (next : Next) (s : Scene σ τ φ ψ) (h : s.worker.buffer.batch = []) :
    (beginFlush setup now next s).1.worker = ⟨next.phase, s.worker.buffer.emptied now⟩ ∧
      (beginFlush setup now next s).2 = [] := by
  have hBatch : s.worker.buffer.batch.isEmpty = true := List.isEmpty_iff.mpr h
  simp only [beginFlush, hBatch, if_true, and_true]
  rfl

theorem poll_stride (source : σ) (store : τ) (counters : Counters) (b : Buffer) :
    let s : Scene σ τ φ ψ := ⟨⟨.polling, b⟩, source, store, counters, false⟩
    Stride setup now false s.worker (poll setup now s).1.worker (poll setup now s).2 := by
  simp only [poll]
  split
  · rename_i hDue
    have hDue' : b.deadline ≤ now := of_decide_eq_true hDue
    by_cases hBatch : b.batch = []
    · obtain ⟨hWorker, hJournal⟩ := beginFlush_empty setup now .poll
        (⟨⟨.polling, b⟩, source, store, counters, false⟩ : Scene σ τ φ ψ) hBatch
      rw [hWorker, hJournal]
      exact .expire rfl hDue' hBatch
    · obtain ⟨due, call, hWorker, hJournal⟩ := beginFlush_worker setup now .poll
        (⟨⟨.polling, b⟩, source, store, counters, false⟩ : Scene σ τ φ ψ) hBatch
      rw [hWorker, hJournal]
      exact .flush rfl hDue' hBatch due call
  · rename_i hDue
    have hDue' : now < b.deadline := Nat.lt_of_not_le fun h => hDue (decide_eq_true h)
    generalize hWait : min setup.settings.fetchWait (b.deadline - now) = wait
    obtain ⟨hWorker, hJournal⟩ := onFetch_worker now
      (⟨⟨.polling, b⟩, (setup.intake.fetch source b.room wait).2, store, counters, false⟩ :
        Scene σ τ φ ψ) (setup.intake.fetch source b.room wait).1
    simp only [hWorker, hJournal]
    exact .ask source rfl hDue' hWait.symm rfl

theorem absorb_stride (source : σ) (store : τ) (counters : Counters) (cancelled : Bool) (b : Buffer)
    (rest : List Delivery) (rejected : Bool) :
    let s : Scene σ τ φ ψ := ⟨⟨.absorbing rest rejected, b⟩, source, store, counters, cancelled⟩
    Stride setup now cancelled s.worker (absorb setup now rejected s rest).1.worker
      (absorb setup now rejected s rest).2 := by
  cases rest with
  | nil =>
    refine .finish b rejected ?_
    cases rejected with
    | true => exact Desk.commit_plain setup.intake rfl
    | false => exact plain_nil
  | cons d rest =>
    simp only [absorb]
    split
    · rename_i event hContent
      have hParcel : d.parcel? = some ⟨event, d.handle⟩ := by simp [Delivery.parcel?, hContent]
      split
      · rename_i hFull
        obtain ⟨due, call, hWorker, hJournal⟩ := beginFlush_worker setup now (.absorb rest rejected)
          (⟨⟨.absorbing (d :: rest) rejected, b.push ⟨event, d.handle⟩⟩, source, store,
            counters.addProcessed 1, cancelled⟩ : Scene σ τ φ ψ) (List.append_ne_nil_of_right_ne_nil _
              (List.cons_ne_nil _ _))
        rw [hWorker, hJournal]
        refine .fill rest rejected hParcel ?_ due call
        simpa [Buffer.isFull, Buffer.push] using hFull
      · rename_i hFull
        refine .take rest rejected hParcel ?_
        simpa [Buffer.isFull, Buffer.push] using hFull
    · rename_i malformed hContent
      have hRefusal : d.parcel? = none := by simp [Delivery.parcel?, hContent]
      exact .refuse b rest rejected hRefusal (Desk.reject_plain setup.intake rfl _ _ _)

theorem endFlush_plain (flush : Flush) (result : Except InsertError Nat) (s : Scene σ τ φ ψ) :
    Plain (endFlush setup now flush result s).2 := by
  cases result with
  | ok attempts =>
    refine plain_append.mpr ⟨Desk.ackAll_plain setup.intake rfl _, ?_⟩
    exact List.forall_mem_singleton.mpr rfl
  | error failure => exact Desk.nakAll_plain setup.intake rfl _ _

theorem writing_stride (source : σ) (store : τ) (counters : Counters) (cancelled : Bool) (b : Buffer)
    (flush : Flush) (w : Writing ψ) :
    let s : Scene σ τ φ ψ := ⟨⟨.writing flush w, b⟩, source, store, counters, cancelled⟩
    Stride setup now cancelled s.worker (step setup now s).1.worker (step setup now s).2 := by
  simp only [step]
  cases w with
  | pausing attempt due =>
    exact .retry b flush (.again attempt due _ _) (.inr rfl)
  | calling attempt due call =>
    rcases hFinish : setup.store.finish store now call flush.rows with ⟨result, store'⟩
    simp only [Writing.step, hFinish]
    cases result with
    | ok u =>
      refine .settle b flush _ (plain_append.mpr ⟨?_, endFlush_plain setup now flush _ _⟩)
      simp [Plain]
    | error e =>
      by_cases hLast : setup.settings.retry.maxAttempts ≤ attempt
      · simp only [hLast, if_true]
        refine .settle b flush _ (plain_append.mpr ⟨?_, endFlush_plain setup now flush _ _⟩)
        simp [Plain]
      · simp only [hLast, if_false]
        refine .retry b flush (.pause due call _ (Nat.lt_of_not_le hLast)) (.inl ?_)
        simp [Plain]

/-- Every step of a worker is a stride. -/
theorem step_stride (s : Scene σ τ φ ψ) :
    Stride setup now s.cancelled s.worker (step setup now s).1.worker (step setup now s).2 := by
  obtain ⟨⟨phase, b⟩, source, store, counters, cancelled⟩ := s
  cases phase with
  | writing flush w => exact writing_stride setup now source store counters cancelled b flush w
  | absorbing rest rejected =>
    exact absorb_stride setup now source store counters cancelled b rest rejected
  | starting => exact .start b
  | stalled => exact .leave b rfl (.inl rfl)
  | stopping => exact .stop b
  | stopped | crashed => exact .ended rfl
  | polling =>
    cases cancelled with
    | true => exact .leave b rfl (.inr rfl)
    | false => exact poll_stride setup now source store counters b
  | fetching due call =>
    cases cancelled with
    | true => exact .leave b rfl (.inr rfl)
    | false =>
      obtain ⟨hWorker, hJournal⟩ := onFetch_worker now
        (⟨⟨.fetching due call, b⟩, (setup.intake.resume source call).2, store, counters, false⟩ :
          Scene σ τ φ ψ) (setup.intake.resume source call).1
      simp only [step, Bool.false_eq_true, if_false, hWorker, hJournal]
      exact .resume source b due rfl rfl
  | pausing due =>
    cases cancelled with
    | true => exact .leave b rfl (.inr rfl)
    | false => exact .rest b due rfl
  | draining =>
    by_cases hBatch : b.batch = []
    · simp only [step, hBatch, List.length_nil, if_true]
      exact .empty hBatch
    · obtain ⟨due, call, hWorker, hJournal⟩ := beginFlush_worker setup now .stop
        (⟨⟨.draining, b⟩, source, store, counters, cancelled⟩ : Scene σ τ φ ψ) hBatch
      have hLength : b.batch.length ≠ 0 := fun h => hBatch (List.length_eq_zero_iff.mp h)
      simp only [step, hLength, if_false, hWorker, hJournal]
      exact .lastFlush hBatch due call

section Entries

variable {setup : Setup σ τ φ ψ} {now : Instant} {cancelled : Bool} {w w' : Worker φ ψ}
  {journal : List Happening}

theorem not_mem_of_plain (h : Plain journal) {entry : Happening} (hEntry : entry.isPlain = false) :
    entry ∉ journal := fun hMem => Bool.false_ne_true (hEntry.symm.trans (h entry hMem))

/-- A fetch asks for an end only when it is made or resumed. -/
theorem Stride.of_fetchStalled (h : Stride setup now cancelled w w' journal)
    (hStalled : .fetchStalled ∈ journal) :
    w.phase = .polling ∨ ∃ due call, w.phase = .fetching due call := by
  cases h with
  | ask => exact .inl rfl
  | resume _ _ due => exact .inr ⟨due, _, rfl⟩
  | refuse _ _ _ _ hPlain | finish _ _ hPlain | settle _ _ _ hPlain =>
    exact absurd hStalled (not_mem_of_plain hPlain rfl)
  | retry _ _ _ hJournal =>
    obtain hPlain | rfl := hJournal
    · exact absurd hStalled (not_mem_of_plain hPlain rfl)
    · simp at hStalled
  | _ => simp at hStalled

/-- A fetch begins before the deadline of a worker that is not cancelled. -/
theorem Stride.of_fetch (h : Stride setup now cancelled w w' journal) {max : Nat} {wait : Duration}
    (hFetch : .fetch max wait ∈ journal) :
    w.phase = .polling ∧ cancelled = false ∧ now < w.buffer.deadline ∧ max = w.buffer.room ∧
      wait = min setup.settings.fetchWait (w.buffer.deadline - now) := by
  cases h with
  | @ask s b hStays hDue wait' hWait f =>
    obtain hSame | hEntry := List.mem_cons.mp hFetch
    · cases hSame
      exact ⟨rfl, hStays, hDue, rfl, hWait⟩
    · exact absurd hEntry (f.not_mem_entries.1 _ _)
  | @resume _ _ _ _ _ f => exact absurd hFetch (f.not_mem_entries.1 _ _)
  | refuse _ _ _ _ hPlain | finish _ _ hPlain | settle _ _ _ hPlain =>
    exact absurd hFetch (not_mem_of_plain hPlain rfl)
  | retry _ _ _ hJournal =>
    obtain hPlain | rfl := hJournal
    · exact absurd hFetch (not_mem_of_plain hPlain rfl)
    · simp at hFetch
  | _ => simp at hFetch

/-- Where rows come from that are to be inserted for the first time. -/
inductive Sends (now : Instant) (cancelled : Bool) (journal : List Happening) (b : Buffer) :
    Phase φ ψ → Batch → Prop where
  | fill {d : Delivery} {p : Parcel} (rest rejected) (hParcel : d.parcel? = some p)
      (hFull : b.capacity ≤ b.batch.length + 1) :
      Sends now cancelled journal b (.absorbing (d :: rest) rejected) (b.batch ++ [p])
  | flush (hStays : cancelled = false) (hDue : b.deadline ≤ now) (hBatch : b.batch ≠ []) :
      Sends now cancelled journal b .polling b.batch
  | last (hBatch : b.batch ≠ []) (hNotice : .notice (.lastFlush b.batch.length) ∈ journal) :
      Sends now cancelled journal b .draining b.batch

theorem Stride.of_insert (h : Stride setup now cancelled w w' journal) {rows : List Row}
    (hInsert : .insert rows ∈ journal) :
    (∃ flush writing, w.phase = .writing flush writing ∧ rows = flush.batch.rows) ∨
    ∃ batch, Sends now cancelled journal w.buffer w.phase batch ∧ rows = batch.rows := by
  cases h with
  | fill rest rejected hParcel hFull due call =>
    obtain hSame | hEntry := List.mem_cons.mp hInsert
    · cases hSame
      exact .inr ⟨_, .fill rest rejected hParcel hFull, rfl⟩
    · cases hEntry
  | flush hStays hDue hBatch due call =>
    obtain hSame | hEntry := List.mem_cons.mp hInsert
    · cases hSame
      exact .inr ⟨_, .flush hStays hDue hBatch, rfl⟩
    · cases hEntry
  | lastFlush hBatch due call =>
    obtain hSame | hEntry := List.mem_cons.mp hInsert
    · cases hSame
    · cases List.mem_singleton.mp hEntry
      exact .inr ⟨_, .last hBatch List.mem_cons_self, rfl⟩
  | retry b flush _ hJournal =>
    obtain hPlain | rfl := hJournal
    · exact absurd hInsert (not_mem_of_plain hPlain rfl)
    · cases List.mem_singleton.mp hInsert
      exact .inl ⟨flush, _, rfl, rfl⟩
  | @ask _ _ _ _ _ _ f =>
    obtain hSame | hEntry := List.mem_cons.mp hInsert
    · cases hSame
    · exact absurd hEntry (f.not_mem_entries.2 _)
  | @resume _ _ _ _ _ f => exact absurd hInsert (f.not_mem_entries.2 _)
  | refuse _ _ _ _ hPlain | finish _ _ hPlain | settle _ _ _ hPlain =>
    exact absurd hInsert (not_mem_of_plain hPlain rfl)
  | _ => simp at hInsert

end Entries

theorem onFetch_cancelled {s : Scene σ τ φ ψ} (h : s.cancelled = false) (source : σ) (f : Fetch φ) :
    (onFetch now { s with source } f).1.cancelled = true ↔
      .fetchStalled ∈ (onFetch now { s with source } f).2 := by
  match f with
  | .answered (.ok _) | .answered (.error _) | .waiting .. | .stalled | .crashed =>
    simp [onFetch, Scene.goTo, h]

theorem poll_cancelled {s : Scene σ τ φ ψ} (h : s.cancelled = false) :
    (poll setup now s).1.cancelled = true ↔ .fetchStalled ∈ (poll setup now s).2 := by
  simp only [poll]
  split
  · rw [beginFlush_cancelled, h]
    refine iff_of_false Bool.false_ne_true ?_
    simp only [beginFlush]
    split <;> simp [Writing.start, Writing.call]
  · refine (onFetch_cancelled now h _ _).trans ?_
    simp

/-- Only a step that asks for deliveries can cancel the work. -/
theorem step_cancelled_eq {s : Scene σ τ φ ψ} (hPolling : s.worker.phase ≠ .polling)
    (hFetching : ∀ due call, s.worker.phase ≠ .fetching due call) :
    (step setup now s).1.cancelled = s.cancelled := by
  cases hPhase : s.worker.phase with
  | polling => exact absurd hPhase hPolling
  | fetching due call => exact absurd hPhase (hFetching due call)
  | starting | stalled | stopping | stopped | crashed => simp only [step, hPhase] <;> rfl
  | pausing due =>
    simp only [step, hPhase]
    split <;> rfl
  | writing flush w =>
    simp only [step, hPhase]
    split <;> rfl
  | draining =>
    simp only [step, hPhase]
    split
    · rfl
    · exact beginFlush_cancelled setup now .stop s
  | absorbing rest rejected =>
    simp only [step, hPhase]
    cases rest with
    | nil => rfl
    | cons d rest =>
      simp only [absorb]
      split
      · split
        · exact beginFlush_cancelled setup now _ _
        · rfl
      · rfl

/-- A step cancels the work if and only if the source asks for an end. -/
theorem step_cancelled_iff (s : Scene σ τ φ ψ) :
    (step setup now s).1.cancelled = true ↔
      s.cancelled = true ∨ .fetchStalled ∈ (step setup now s).2 := by
  cases hCancelled : s.cancelled with
  | true => exact iff_of_true (step_cancelled setup now hCancelled) (.inl rfl)
  | false =>
    have hOther : s.worker.phase ≠ .polling → (∀ due call, s.worker.phase ≠ .fetching due call) →
        ((step setup now s).1.cancelled = true ↔
          false = true ∨ .fetchStalled ∈ (step setup now s).2) := by
      intro hPolling hFetching
      rw [step_cancelled_eq setup now hPolling hFetching, hCancelled]
      refine iff_of_false Bool.false_ne_true fun h => ?_
      obtain h | hStalled := h
      · exact Bool.false_ne_true h
      · obtain hPhase | ⟨due, call, hPhase⟩ := (step_stride setup now s).of_fetchStalled hStalled
        · exact hPolling hPhase
        · exact hFetching due call hPhase
    cases hPhase : s.worker.phase with
    | polling =>
      simp only [step, hPhase, hCancelled, Bool.false_eq_true, if_false, false_or]
      exact poll_cancelled setup now hCancelled
    | fetching due call =>
      simp only [step, hPhase, hCancelled, Bool.false_eq_true, if_false, false_or]
      exact onFetch_cancelled now (s := { s with cancelled := false }) rfl _ _
    | _ => exact hOther (by simp [hPhase]) (by simp [hPhase])

end Worker

end EventIngest
