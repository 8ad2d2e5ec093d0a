import EventIngest.Proofs.Deeds
import EventIngest.Worker.Basic
/-!
# Custody

What a worker is answerable for at any time: the call of a fetch that waits, the deliveries that it
has not looked at, and the parcels that it has taken in and not settled. A move of the worker
changes its custody and its source together, and does the deeds that belong to the change.
`step_advances` says once what a step can do; whatever is kept by all moves is kept by every run.
-/
namespace EventIngest

/-- What a worker is answerable for. One that is leaving fetches no more. -/
structure Custody (φ : Type) where
  call : Option φ := none
  coming : List Delivery := []
  held : Batch := []
  leaving : Bool := false
  /-- A message was rejected, and the commit after it is still to come. -/
  owing : Bool := false

namespace Fetch

variable {φ : Type}

def deeds : Fetch φ → List Deed
  | .answered (.ok deliveries) => [.receive deliveries]
  | .answered (.error e) => [.miss e]
  | .stalled => [.stall]
  | .waiting .. | .crashed => []

theorem storedBatches_deeds (f : Fetch φ) : Deed.storedBatches f.deeds = [] := by
  match f with
  | .answered (.ok _) | .answered (.error _) | .stalled | .waiting .. | .crashed => rfl

end Fetch

namespace Custody

variable {σ φ : Type}

def fetched (c : Custody φ) : Fetch φ → Custody φ
  | .answered (.ok deliveries) => { c with call := none, coming := deliveries }
  | .answered (.error _) => { c with call := none }
  | .waiting _ call => { c with call := some call }
  | .stalled | .crashed => { c with call := none, leaving := true }

/-- What a worker can do, with the deeds that it amounts to. -/
inductive Move (intake : Source σ φ) (settings : WorkerSettings) :
    Custody φ → σ → List Deed → Custody φ → σ → Prop where
  | rest (c s) : Move intake settings c s [] c s
  | leave (c s) : Move intake settings c s [] { c with call := none, leaving := true } s
  | fetch {c : Custody φ} (s max wait) (hcall : c.call = none) (hcoming : c.coming = [])
      (hmax : max = settings.batchSize - c.held.length)
      (hroom : 0 < settings.batchSize → c.held.length < settings.batchSize)
      (hstays : c.leaving = false) (howing : c.owing = false) :
      Move intake settings c s (.ask max wait :: (intake.fetch s max wait).1.deeds)
        (c.fetched (intake.fetch s max wait).1) (intake.fetch s max wait).2
  | resume {c : Custody φ} (s call) (hcall : c.call = some call) (hcoming : c.coming = [])
      (hstays : c.leaving = false) :
      Move intake settings c s (intake.resume s call).1.deeds
        (c.fetched (intake.resume s call).1) (intake.resume s call).2
  | accept {c : Custody φ} {d : Delivery} {rest p} (s) (hcoming : c.coming = d :: rest)
      (hparcel : d.parcel? = some p) (hcall : c.call = none) :
      Move intake settings c s [.accept p] { c with coming := rest, held := c.held ++ [p] } s
  | reject {c : Custody φ} {d : Delivery} {rest h m} (s) (hcoming : c.coming = d :: rest)
      (hrefusal : d.refusal? = some (h, m)) (hcall : c.call = none) :
      Move intake settings c s
        [.reject h m (intake.refuse settings.maxDeliver h m s).1
          (intake.refuse settings.maxDeliver h m s).2.1]
        { c with coming := rest, owing := true } (intake.refuse settings.maxDeliver h m s).2.2
  | commit {c : Custody φ} (s) (hcoming : c.coming = []) (hcall : c.call = none) :
      Move intake settings c s [.commit (intake.commit s).1] { c with owing := false }
        (intake.commit s).2
  | store {c : Custody φ} {batch kept failures} (s) (hheld : c.held = batch ++ kept)
      (hfailures : failures.length < settings.retry.maxAttempts) (hcall : c.call = none) :
      Move intake settings c s
        [.store (Source.each intake.ack batch s).1 failures
          (intake.commit (Source.each intake.ack batch s).2).1]
        { c with held := kept } (intake.commit (Source.each intake.ack batch s).2).2
  | giveUp {c : Custody φ} {batch kept failures} (s) (hheld : c.held = batch ++ kept)
      (hfailures : failures.length = settings.retry.maxAttempts) (hcall : c.call = none) :
      Move intake settings c s
        [.giveUp (Source.each intake.nak batch s).1 failures
          (intake.commit (Source.each intake.nak batch s).2).1]
        { c with held := kept } (intake.commit (Source.each intake.nak batch s).2).2

/-- A batch is given up after the last attempt and not before, and a message is put aside if it was
handed out often enough. -/
def Allows (settings : WorkerSettings) : Deed → Prop
  | .store _ failures _ => failures.length < settings.retry.maxAttempts
  | .giveUp _ failures _ => failures.length = settings.retry.maxAttempts
  | .reject h _ letter _ => letter.isSome = Desk.isSpent settings.maxDeliver h
  | _ => True

theorem Move.allows {intake : Source σ φ} {settings : WorkerSettings} {c c' : Custody φ} {s s' : σ}
    {deeds : List Deed} (hMove : Move intake settings c s deeds c' s') :
    ∀ d ∈ deeds, Allows settings d := by
  have hFetch : ∀ (f : Fetch φ), ∀ d ∈ f.deeds, Allows settings d := by
    intro f d hd
    match f with
    | .answered (.ok _) | .answered (.error _) | .stalled =>
      obtain rfl := List.mem_singleton.mp hd
      trivial
  cases hMove with
  | rest | leave => simp
  | fetch s max wait => exact List.forall_mem_cons.mpr ⟨trivial, hFetch _⟩
  | resume s call => exact hFetch _
  | accept | commit => exact List.forall_mem_singleton.mpr trivial
  | reject s =>
    refine List.forall_mem_singleton.mpr ?_
    simp only [Allows, Source.refuse]
    split
    · rename_i hSpent
      split <;> simp [hSpent]
    · rename_i hSpent
      simp [hSpent]
  | store s hHeld hFailures => exact List.forall_mem_singleton.mpr hFailures
  | giveUp s hHeld hFailures => exact List.forall_mem_singleton.mpr hFailures

theorem Move.keeps {intake : Source σ φ} {P : σ → Prop} (hKeeps : intake.Keeps P)
    {settings : WorkerSettings} {c c' : Custody φ} {s s' : σ} {deeds : List Deed}
    (hMove : Move intake settings c s deeds c' s') (h : P s) : P s' := by
  cases hMove with
  | rest | leave | accept => exact h
  | fetch s max wait => exact hKeeps.fetch s max wait h
  | resume s call => exact hKeeps.resume s call h
  | reject s => exact hKeeps.refuse settings.maxDeliver _ _ h
  | commit s => exact hKeeps.commit s h
  | store s => exact hKeeps.commit _ (Source.each_keeps hKeeps.ack _ h)
  | giveUp s => exact hKeeps.commit _ (Source.each_keeps hKeeps.nak _ h)

end Custody

namespace Worker

variable {σ τ φ ψ : Type}

@[simp] def Next.coming : Next → List Delivery
  | .absorb rest _ => rest
  | .poll | .stop => []

@[simp] def Next.owes : Next → Bool
  | .absorb _ rejected => rejected
  | .poll | .stop => false

@[simp] def Next.isLast : Next → Bool
  | .stop => true
  | .poll | .absorb .. => false

namespace Phase

@[simp] def call? : Phase φ ψ → Option φ
  | .fetching _ call => some call
  | _ => none

@[simp] def coming : Phase φ ψ → List Delivery
  | .absorbing rest _ => rest
  | .writing flush _ => flush.next.coming
  | _ => []

@[simp] def written : Phase φ ψ → Batch
  | .writing flush _ => flush.batch
  | _ => []

@[simp] def owes : Phase φ ψ → Bool
  | .absorbing _ rejected => rejected
  | .writing flush _ => flush.next.owes
  | _ => false

@[simp] def isLeaving : Phase φ ψ → Bool
  | .stalled | .draining | .stopping | .stopped | .crashed => true
  | .writing flush _ => flush.next.isLast
  | _ => false

/-- The calls made so far for the batch that is being written, of which every attempt that has ended
ended in an error. -/
@[simp] def Underway (maxAttempts : Nat) (failures : List StoreError) (calls : List Happening) :
    Phase φ ψ → Prop
  | .writing flush (.calling attempt _ _) =>
    attempt = failures.length + 1 ∧ failures.length < maxAttempts ∧
      calls = failedAttempts flush.batch.rows failures ++ [.insert flush.batch.rows]
  | .writing flush (.pausing attempt _) =>
    attempt = failures.length ∧ failures.length < maxAttempts ∧
      calls = failedAttempts flush.batch.rows failures
  | _ => failures = [] ∧ calls = []

end Phase

def custody (w : Worker φ ψ) : Custody φ :=
  ⟨w.phase.call?, w.phase.coming, w.phase.written ++ w.buffer.batch, w.phase.isLeaving, w.phase.owes⟩

open Journal

/-- The buffer of a worker is not full when the worker may take more into it. -/
def Roomy (settings : WorkerSettings) (w : Worker φ ψ) : Prop :=
  w.buffer.capacity = settings.batchSize ∧ (0 < settings.batchSize →
    match w.phase with
    | .starting | .polling | .fetching .. | .pausing _ | .absorbing .. =>
      w.buffer.batch.length < settings.batchSize
    | .writing .. => w.buffer.batch = []
    | _ => True)

/-- What a step does beside its calls: it counts, and it notes the batches that could not be
stored. -/
structure Tells (s : Scene σ τ φ ψ) (r : Scene σ τ φ ψ × List Happening) (deeds : List Deed) :
    Prop where
  counters : r.1.counters = deeds.foldl Deed.tally s.counters
  failedSizes : failedSizes r.2 = deeds.filterMap Deed.failedSize?

/-- The result of a step is a move, its journal closes the deeds of the move, and the calls for a
batch that is still being written remain. -/
def Advances (setup : Setup σ τ φ ψ) (s : Scene σ τ φ ψ) (pending : List Happening)
    (r : Scene σ τ φ ψ × List Happening) : Prop :=
  ∃ deeds failures pending',
    Custody.Move setup.intake setup.settings s.worker.custody s.source deeds
      r.1.worker.custody r.1.source ∧
    r.1.worker.phase.Underway setup.settings.retry.maxAttempts failures pending' ∧
    pending ++ calls r.2 = deeds.flatMap Deed.calls ++ pending' ∧ Tells s r deeds

theorem Next.phase_custody (next : Next) (b : Buffer) :
    custody (⟨next.phase, b⟩ : Worker φ ψ)
      = ⟨none, next.coming, b.batch, next.isLast, next.owes⟩ := by
  cases next <;> rfl

theorem Next.phase_underway (next : Next) (maxAttempts : Nat) :
    (next.phase : Phase φ ψ).Underway maxAttempts [] [] := by
  cases next <;> exact ⟨rfl, rfl⟩

theorem Flush.rows_eq (flush : Flush) : flush.rows = flush.batch.rows := rfl

theorem maxAttempts_pos (retry : Retry) : 0 < retry.maxAttempts := by
  simp only [Retry.maxAttempts, Retry.mostAttempts]
  omega

theorem nextAttempt_eq {retry : Retry} {n : Nat} (h : n < retry.maxAttempts) :
    Retry.nextAttempt n = n + 1 := by
  simp only [Retry.maxAttempts, Retry.nextAttempt] at h ⊢
  omega

theorem beginFlush_custody (setup : Setup σ τ φ ψ) (now : Instant) (next : Next)
    (s : Scene σ τ φ ψ) :
    let r := beginFlush setup now next s
    r.1.worker.custody = ⟨none, next.coming, s.worker.buffer.batch, next.isLast, next.owes⟩ ∧
    r.1.source = s.source ∧
    r.1.worker.phase.Underway setup.settings.retry.maxAttempts [] (calls r.2) ∧
    Tells s r [] := by
  simp only [beginFlush]
  split
  · rename_i hEmpty
    have hBatch : s.worker.buffer.batch = [] := List.isEmpty_iff.mp hEmpty
    exact ⟨(next.phase_custody _).trans (by rw [hBatch]; rfl), rfl, next.phase_underway _, rfl, rfl⟩
  · refine ⟨?_, rfl, ?_, rfl, rfl⟩
    · simp [Scene.goTo, custody, Buffer.emptied]
    · have hFirst : Retry.nextAttempt 0 = 1 := nextAttempt_eq (maxAttempts_pos setup.settings.retry)
      simp [Scene.goTo, Writing.start, Writing.call, hFirst, maxAttempts_pos, failedAttempts,
        Flush.rows, Batch.rows]

theorem endFlush_custody (setup : Setup σ τ φ ψ) (now : Instant) (flush : Flush)
    (result : Except InsertError Nat) (s : Scene σ τ φ ψ) :
    (endFlush setup now flush result s).1.worker.custody
      = ⟨none, flush.next.coming, s.worker.buffer.batch, flush.next.isLast, flush.next.owes⟩ :=
  flush.next.phase_custody _

theorem onFetch_custody (now : Instant) (s : Scene σ τ φ ψ) (f : Fetch φ) (maxAttempts : Nat) :
    let r := onFetch now s f
    r.1.worker.custody = ({ held := s.worker.buffer.batch } : Custody φ).fetched f ∧
    r.1.source = s.source ∧
    r.1.worker.phase.Underway maxAttempts [] [] ∧
    calls r.2 = f.deeds.flatMap Deed.calls ∧ Tells s r f.deeds := by
  match f with
  | .answered (.ok deliveries) => exact ⟨rfl, rfl, ⟨rfl, rfl⟩, rfl, rfl, rfl⟩
  | .answered (.error e) => exact ⟨rfl, rfl, ⟨rfl, rfl⟩, rfl, rfl, rfl⟩
  | .waiting time call => exact ⟨rfl, rfl, ⟨rfl, rfl⟩, rfl, rfl, rfl⟩
  | .stalled => exact ⟨rfl, rfl, ⟨rfl, rfl⟩, rfl, rfl, rfl⟩
  | .crashed => exact ⟨rfl, rfl, ⟨rfl, rfl⟩, rfl, rfl, rfl⟩

theorem poll_advances (setup : Setup σ τ φ ψ) (now : Instant) (s : Scene σ τ φ ψ)
    (hphase : s.worker.phase = .polling) (hRoomy : s.worker.Roomy setup.settings) :
    Advances setup s [] (poll setup now s) := by
  have hCustody : s.worker.custody = { held := s.worker.buffer.batch } := by
    simp [custody, hphase]
  simp only [poll]
  split
  · obtain ⟨hFlush, hSource, hUnderway, hTells⟩ := beginFlush_custody setup now .poll s
    refine ⟨[], [], _, ?_, hUnderway, rfl, hTells⟩
    rw [hFlush, hSource, hCustody]
    exact .rest _ _
  · obtain ⟨hCapacity, hFree⟩ := hRoomy
    simp only [hphase] at hFree
    have hMax : s.worker.buffer.room
        = setup.settings.batchSize - s.worker.buffer.batch.length := by
      rw [Buffer.room, hCapacity]
    generalize s.worker.buffer.room = max at hMax
    generalize min setup.settings.fetchWait (s.worker.buffer.deadline - now) = wait
    obtain ⟨hFetched, hSource, hUnderway, hCalls, hTells⟩ := onFetch_custody now
      { s with source := (setup.intake.fetch s.source max wait).2 }
      (setup.intake.fetch s.source max wait).1 setup.settings.retry.maxAttempts
    refine ⟨.ask max wait :: (setup.intake.fetch s.source max wait).1.deeds, [], [], ?_, hUnderway,
      ?_, hTells.counters, ?_⟩
    · simp only [hFetched, hSource, hCustody]
      exact .fetch _ max wait rfl rfl hMax hFree rfl rfl
    · simp [hCalls, Deed.calls]
    · exact hTells.failedSizes

theorem absorb_advances (setup : Setup σ τ φ ψ) (now : Instant) (s : Scene σ τ φ ψ)
    (rest : List Delivery) (rejected : Bool) (hphase : s.worker.phase = .absorbing rest rejected) :
    Advances setup s [] (absorb setup now rejected s rest) := by
  have hCustody : s.worker.custody
      = { coming := rest, held := s.worker.buffer.batch, owing := rejected } := by
    simp [custody, hphase]
  rw [Advances, hCustody]
  cases rest with
  | nil =>
    cases rejected with
    | false => exact ⟨[], [], [], .rest _ _, ⟨rfl, rfl⟩, rfl, rfl, rfl⟩
    | true =>
      have hSame := s.desk.commit_sameAccount setup.intake
      refine ⟨[.commit (setup.intake.commit s.source).1], [], [], ?_, ⟨rfl, rfl⟩, ?_,
        hSame.counters, hSame.failedSizes⟩
      · simp only [absorb, Scene.leave, Scene.goTo, if_true, Desk.commit_source]
        exact .commit _ rfl rfl
      · simp [absorb, Scene.desk, Deed.calls]
  | cons d rest =>
    simp only [absorb]
    split
    · rename_i event hContent
      have hParcel : d.parcel? = some ⟨event, d.handle⟩ := by simp [Delivery.parcel?, hContent]
      split
      · obtain ⟨hFlush, hSource, hUnderway, hTells⟩ := beginFlush_custody setup now
          (.absorb rest rejected)
          { s with
            worker := { s.worker with buffer := s.worker.buffer.push ⟨event, d.handle⟩ }
            counters := s.counters.addProcessed 1 }
        refine ⟨[.accept ⟨event, d.handle⟩], [], _, ?_, hUnderway, rfl, hTells.counters,
          hTells.failedSizes⟩
        rw [hFlush, hSource]
        exact .accept _ rfl hParcel rfl
      · exact ⟨_, [], [], .accept _ rfl hParcel rfl, ⟨rfl, rfl⟩, rfl, rfl, rfl⟩
    · rename_i malformed hContent
      have hRefusal : d.refusal? = some (d.handle, malformed) := by
        simp [Delivery.refusal?, hContent]
      obtain ⟨hCounters, hSizes⟩ := s.desk.reject_account setup.intake d.handle
        setup.settings.maxDeliver malformed
      refine ⟨[.reject d.handle malformed
        (setup.intake.refuse setup.settings.maxDeliver d.handle malformed s.source).1
        (setup.intake.refuse setup.settings.maxDeliver d.handle malformed s.source).2.1],
        [], [], ?_, ⟨rfl, rfl⟩, ?_, hCounters, hSizes⟩
      · simp only [Scene.leave, Scene.goTo, Desk.reject_source]
        exact .reject _ rfl hRefusal rfl
      · simp [Scene.desk, Desk.reject_calls]

theorem failedAttempts_append (rows : List Row) (failures : List StoreError) (e : StoreError) :
    failedAttempts rows (failures ++ [e])
      = failedAttempts rows failures ++ [.insert rows, .inserted rows (.error e)] := by
  simp [failedAttempts]

theorem writing_advances (setup : Setup σ τ φ ψ) (now : Instant) (s : Scene σ τ φ ψ)
    {flush : Flush} {writing : Writing ψ} {failures : List StoreError} {pending : List Happening}
    (hphase : s.worker.phase = .writing flush writing)
    (h : s.worker.phase.Underway setup.settings.retry.maxAttempts failures pending) :
    Advances setup s pending (step setup now s) := by
  have hCustody : s.worker.custody = ⟨none, flush.next.coming, flush.batch ++ s.worker.buffer.batch,
      flush.next.isLast, flush.next.owes⟩ := by
    simp [custody, hphase]
  rw [hphase] at h
  rw [Advances, hCustody]
  cases writing with
  | pausing attempt due =>
    obtain ⟨rfl, hLess, rfl⟩ := h
    simp only [step, hphase, Writing.step, Writing.call]
    exact ⟨[], failures, _, .rest _ _, ⟨nextAttempt_eq hLess, hLess, rfl⟩, rfl, rfl, rfl⟩
  | calling attempt due call =>
    obtain ⟨rfl, hLess, rfl⟩ := h
    have hWriting := Writing.step.eq_1 setup.store setup.settings.retry s.store now flush.rows
      (failures.length + 1) due call
    rcases hFinish : setup.store.finish s.store now call flush.rows with ⟨⟨_⟩ | _, store⟩
    · rename_i e
      rw [hFinish] at hWriting
      by_cases hLast : setup.settings.retry.maxAttempts ≤ failures.length + 1
      · simp only [hLast, if_true] at hWriting
        simp only [step, hphase, hWriting]
        have hAll : (failures ++ [e]).length = setup.settings.retry.maxAttempts := by
          simp only [List.length_append, List.length_singleton]
          omega
        obtain ⟨hCounters, hSizes⟩ := Desk.nakAll_account setup.intake
          (Scene.desk { s with store }) flush.batch ⟨flush.rows.length, failures.length + 1, e⟩
        refine ⟨[.giveUp (Source.each setup.intake.nak flush.batch s.source).1 (failures ++ [e])
          (setup.intake.commit (Source.each setup.intake.nak flush.batch s.source).2).1], [], [],
          ?_, flush.next.phase_underway _, ?_, ?_, ?_⟩
        · rw [endFlush_custody]
          simp only [endFlush, Scene.leave, Scene.restartTimer, Scene.goTo, Desk.nakAll_source]
          exact .giveUp _ rfl hAll rfl
        · simp [endFlush, Scene.desk, Desk.nakAll_calls, Deed.calls, failedAttempts_append,
            Flush.rows_eq]
        · rw [List.foldl_cons, Deed.tally, Source.batchOf_each]
          exact hCounters
        · simp only [endFlush, failedSizes_append]
          rw [hSizes]
          simp [Scene.desk, Deed.failedSize?]
      · simp only [hLast, if_false] at hWriting
        simp only [step, hphase, hWriting]
        have hLength : (failures ++ [e]).length = failures.length + 1 := by simp
        exact ⟨[], failures ++ [e], _, .rest _ _, ⟨hLength.symm, by omega, rfl⟩,
          by simp [failedAttempts_append, Flush.rows_eq], rfl, rfl⟩
    · rw [hFinish] at hWriting
      simp only [step, hphase, hWriting]
      obtain ⟨hCounters, hSizes⟩ := Desk.ackAll_account setup.intake (Scene.desk { s with store })
        flush.batch
      refine ⟨[.store (Source.each setup.intake.ack flush.batch s.source).1 failures
        (setup.intake.commit (Source.each setup.intake.ack flush.batch s.source).2).1], [], [],
        ?_, flush.next.phase_underway _, ?_, ?_, ?_⟩
      · rw [endFlush_custody]
        simp only [endFlush, Scene.leave, Scene.restartTimer, Scene.goTo, Desk.note_source,
          Desk.ackAll_source]
        exact .store _ rfl hLess rfl
      · simp [endFlush, Scene.desk, Desk.ackAll_calls, Deed.calls, Flush.rows_eq]
      · rw [List.foldl_cons, Deed.tally, Source.batchOf_each]
        exact hCounters
      · simp only [endFlush, failedSizes_append, Desk.note, Desk.record]
        rw [hSizes]
        simp [Scene.desk, Deed.failedSize?]

theorem Advances.of_rest {setup : Setup σ τ φ ψ} {s : Scene σ τ φ ψ}
    {r : Scene σ τ φ ψ × List Happening} {pending : List Happening}
    (hcustody : r.1.worker.custody = s.worker.custody) (hsource : r.1.source = s.source)
    (hunderway : r.1.worker.phase.Underway setup.settings.retry.maxAttempts [] pending)
    (hcalls : calls r.2 = pending) (htells : Tells s r []) : Advances setup s [] r :=
  ⟨[], [], pending, by rw [hcustody, hsource]; exact .rest _ _, hunderway, hcalls, htells⟩

theorem Advances.of_leave {setup : Setup σ τ φ ψ} {s : Scene σ τ φ ψ}
    {r : Scene σ τ φ ψ × List Happening}
    (hcustody : r.1.worker.custody = { s.worker.custody with call := none, leaving := true })
    (hsource : r.1.source = s.source)
    (hunderway : r.1.worker.phase.Underway setup.settings.retry.maxAttempts [] [])
    (hcalls : calls r.2 = []) (htells : Tells s r []) : Advances setup s [] r :=
  ⟨[], [], [], by rw [hcustody, hsource]; exact .leave _ _, hunderway, hcalls, htells⟩

theorem fetching_advances (setup : Setup σ τ φ ψ) (now : Instant) (s : Scene σ τ φ ψ)
    {due : Instant} {call : φ} (hphase : s.worker.phase = .fetching due call) :
    Advances setup s [] (step setup now s) := by
  have hCustody : s.worker.custody = { call := some call, held := s.worker.buffer.batch } := by
    simp [custody, hphase]
  simp only [step, hphase]
  split
  · exact .of_leave (by rw [hCustody]; rfl) rfl ⟨rfl, rfl⟩ rfl ⟨rfl, rfl⟩
  · obtain ⟨hFetched, hSource, hUnderway, hCalls, hTells⟩ := onFetch_custody now
      { s with source := (setup.intake.resume s.source call).2 }
      (setup.intake.resume s.source call).1 setup.settings.retry.maxAttempts
    refine ⟨(setup.intake.resume s.source call).1.deeds, [], [], ?_, hUnderway, ?_,
      hTells.counters, hTells.failedSizes⟩
    · have hMove : Custody.Move setup.intake setup.settings
          { call := some call, held := s.worker.buffer.batch } s.source _ _ _ :=
        .resume s.source call rfl rfl rfl
      rw [hCustody, hFetched, hSource]
      generalize (setup.intake.resume s.source call).1 = f at hMove ⊢
      match f with
      | .answered (.ok _) | .answered (.error _) | .waiting .. | .stalled | .crashed => exact hMove
    · simp only [hCalls, List.nil_append, List.append_nil]

theorem Phase.Underway.eq_nil {phase : Phase φ ψ} {maxAttempts : Nat} {failures : List StoreError}
    {pending : List Happening} (h : phase.Underway maxAttempts failures pending)
    (hphase : ∀ flush writing, phase ≠ .writing flush writing) : pending = [] := by
  cases phase with
  | writing flush writing => exact absurd rfl (hphase flush writing)
  | _ => exact h.2

theorem Phase.Underway.pending_cases {phase : Phase φ ψ} {maxAttempts : Nat}
    {failures : List StoreError} {pending : List Happening}
    (h : phase.Underway maxAttempts failures pending) :
    pending = [] ∨ ∃ rows, pending = failedAttempts rows failures ∨
      pending = failedAttempts rows failures ++ [.insert rows] := by
  match phase with
  | .writing flush (.calling attempt due call) => exact .inr ⟨_, .inr h.2.2⟩
  | .writing flush (.pausing attempt due) => exact .inr ⟨_, .inl h.2.2⟩
  | .starting | .polling | .fetching .. | .stalled | .pausing _ | .absorbing .. | .draining
  | .stopping | .stopped | .crashed => exact .inl h.2

/-- Every step of a worker is a move of its custody. -/
theorem step_advances (setup : Setup σ τ φ ψ) (now : Instant) (s : Scene σ τ φ ψ)
    {failures : List StoreError} {pending : List Happening}
    (hRoomy : s.worker.Roomy setup.settings)
    (h : s.worker.phase.Underway setup.settings.retry.maxAttempts failures pending) :
    Advances setup s pending (step setup now s) := by
  by_cases hWriting : ∃ flush writing, s.worker.phase = .writing flush writing
  · obtain ⟨flush, writing, hphase⟩ := hWriting
    exact writing_advances setup now s hphase h
  obtain rfl := h.eq_nil fun flush writing he => hWriting ⟨flush, writing, he⟩
  cases hphase : s.worker.phase with
  | writing flush writing => exact absurd ⟨flush, writing, hphase⟩ hWriting
  | starting =>
    simp only [step, hphase]
    exact .of_rest (by simp [Scene.goTo, Scene.restartTimer, Buffer.restartTimer, custody, hphase])
      rfl ⟨rfl, rfl⟩ rfl ⟨rfl, rfl⟩
  | polling =>
    simp only [step, hphase]
    split
    · exact .of_leave (by simp [Scene.goTo, custody, hphase]) rfl ⟨rfl, rfl⟩ rfl ⟨rfl, rfl⟩
    · exact poll_advances setup now s hphase hRoomy
  | fetching due call => exact fetching_advances setup now s hphase
  | absorbing rest rejected =>
    simp only [step, hphase]
    exact absorb_advances setup now s rest rejected hphase
  | pausing due =>
    simp only [step, hphase]
    split
    · exact .of_leave (by simp [Scene.goTo, custody, hphase]) rfl ⟨rfl, rfl⟩ rfl ⟨rfl, rfl⟩
    · exact .of_rest (by simp [Scene.goTo, custody, hphase]) rfl ⟨rfl, rfl⟩ rfl ⟨rfl, rfl⟩
  | draining =>
    simp only [step, hphase]
    split
    · exact .of_rest (by simp [Scene.goTo, custody, hphase]) rfl ⟨rfl, rfl⟩ rfl ⟨rfl, rfl⟩
    · obtain ⟨hFlush, hSource, hUnderway, hTells⟩ := beginFlush_custody setup now .stop s
      exact .of_rest (hFlush.trans (by simp [custody, hphase])) hSource hUnderway rfl
        ⟨hTells.counters, hTells.failedSizes⟩
  | stalled | stopping =>
    simp only [step, hphase]
    exact .of_rest (by simp [Scene.goTo, custody, hphase]) rfl ⟨rfl, rfl⟩ rfl ⟨rfl, rfl⟩
  | stopped | crashed =>
    simp only [step, hphase]
    exact .of_rest rfl rfl (by simp [hphase]) rfl ⟨rfl, rfl⟩

theorem roomy_of_empty {settings : WorkerSettings} {w : Worker φ ψ}
    (hCapacity : w.buffer.capacity = settings.batchSize) (hEmpty : w.buffer.batch = []) :
    w.Roomy settings := by
  refine ⟨hCapacity, fun hSize => ?_⟩
  have hFree : w.buffer.batch.length < settings.batchSize := by rwa [hEmpty]
  split <;> first | exact hFree | exact hEmpty | trivial

section Roomy

variable (setup : Setup σ τ φ ψ) (now : Instant) (s : Scene σ τ φ ψ)

theorem beginFlush_roomy (next : Next)
    (hCapacity : s.worker.buffer.capacity = setup.settings.batchSize) :
    (beginFlush setup now next s).1.worker.Roomy setup.settings := by
  apply roomy_of_empty
  · simp only [beginFlush]
    split <;> exact hCapacity
  · simp only [beginFlush]
    split <;> rfl

variable {s}

theorem onFetch_roomy (f : Fetch φ) (h : s.worker.buffer.capacity = setup.settings.batchSize)
    (hFree : 0 < setup.settings.batchSize →
      s.worker.buffer.batch.length < setup.settings.batchSize) :
    (onFetch now s f).1.worker.Roomy setup.settings := by
  match f with
  | .answered (.ok _) | .answered (.error _) | .waiting .. => exact ⟨h, hFree⟩
  | .stalled | .crashed => exact ⟨h, fun _ => trivial⟩

theorem absorb_roomy {rest : List Delivery} {rejected : Bool}
    (h : s.worker.buffer.capacity = setup.settings.batchSize)
    (hFree : 0 < setup.settings.batchSize →
      s.worker.buffer.batch.length < setup.settings.batchSize) :
    (absorb setup now rejected s rest).1.worker.Roomy setup.settings := by
  cases rest with
  | nil => exact ⟨h, hFree⟩
  | cons d rest =>
    simp only [absorb]
    split
    · split
      · exact beginFlush_roomy setup now _ _ h
      · rename_i hFull
        refine ⟨h, fun _ => ?_⟩
        simpa [Buffer.isFull, Buffer.push, h, Scene.goTo] using hFull
    · exact ⟨h, hFree⟩

theorem step_roomy (h : s.worker.Roomy setup.settings) :
    (step setup now s).1.worker.Roomy setup.settings := by
  obtain ⟨hCapacity, hFree⟩ := h
  cases hphase : s.worker.phase with
  | starting =>
    simp only [hphase] at hFree
    simp only [step, hphase]
    exact ⟨hCapacity, hFree⟩
  | polling =>
    simp only [hphase] at hFree
    simp only [step, hphase, poll]
    split
    · exact ⟨hCapacity, fun _ => trivial⟩
    · split
      · exact beginFlush_roomy setup now _ _ hCapacity
      · exact onFetch_roomy setup now _ hCapacity hFree
  | fetching due call =>
    simp only [hphase] at hFree
    simp only [step, hphase]
    split
    · exact ⟨hCapacity, fun _ => trivial⟩
    · exact onFetch_roomy setup now _ hCapacity hFree
  | pausing due =>
    simp only [hphase] at hFree
    simp only [step, hphase]
    split
    · exact ⟨hCapacity, fun _ => trivial⟩
    · exact ⟨hCapacity, hFree⟩
  | absorbing rest rejected =>
    simp only [hphase] at hFree
    simp only [step, hphase]
    exact absorb_roomy setup now hCapacity hFree
  | writing flush writing =>
    simp only [hphase] at hFree
    simp only [step, hphase]
    split
    · exact ⟨hCapacity, hFree⟩
    · refine ⟨hCapacity, fun hSize => ?_⟩
      have hEmpty : s.worker.buffer.batch = [] := hFree hSize
      have hRoom : s.worker.buffer.batch.length < setup.settings.batchSize := by rwa [hEmpty]
      cases hNext : flush.next <;> simp only [endFlush, Scene.goTo, hNext, Next.phase] <;>
        exact hRoom
  | draining =>
    simp only [step, hphase]
    split
    · exact ⟨hCapacity, fun _ => trivial⟩
    · exact beginFlush_roomy setup now s .stop hCapacity
  | stalled | stopping =>
    simp only [step, hphase]
    exact ⟨hCapacity, fun _ => trivial⟩
  | stopped | crashed =>
    simp only [step, hphase]
    exact ⟨hCapacity, by simp only [hphase]; exact fun _ => trivial⟩

end Roomy

/-- The journal of a worker consists of these deeds, and of the calls for a batch that is still being
written. -/
def Chronicle (settings : WorkerSettings) (w : Worker φ ψ) (journal : List Happening)
    (deeds : List Deed) : Prop :=
  w.Roomy settings ∧ ∃ failures pending,
    w.phase.Underway settings.retry.maxAttempts failures pending ∧
      calls journal = deeds.flatMap Deed.calls ++ pending

theorem chronicle_idle (settings : WorkerSettings) (now : Instant) :
    Chronicle settings (idle settings now : Worker φ ψ) [] [] :=
  ⟨roomy_of_empty rfl rfl, [], [], ⟨rfl, rfl⟩, rfl⟩

theorem step_chronicle (setup : Setup σ τ φ ψ) (now : Instant) (s : Scene σ τ φ ψ)
    {journal : List Happening} {deeds : List Deed}
    (h : Chronicle setup.settings s.worker journal deeds) :
    ∃ new, Custody.Move setup.intake setup.settings s.worker.custody s.source new
        (step setup now s).1.worker.custody (step setup now s).1.source ∧
      Chronicle setup.settings (step setup now s).1.worker (journal ++ (step setup now s).2)
        (deeds ++ new) ∧
      Tells s (step setup now s) new := by
  obtain ⟨hRoomy, failures, pending, hUnderway, hJournal⟩ := h
  obtain ⟨new, failures', pending', hMove, hUnderway', hCalls, hTells⟩ :=
    step_advances setup now s hRoomy hUnderway
  refine ⟨new, hMove, ⟨step_roomy setup now hRoomy, failures', pending', hUnderway', ?_⟩, hTells⟩
  rw [calls_append, hJournal, List.append_assoc, hCalls, List.flatMap_append, List.append_assoc]

namespace Chronicle

variable {settings : WorkerSettings} {w : Worker φ ψ} {journal : List Happening}
  {deeds : List Deed}

/-- A reading that passes over failed attempts reads in the journal what it reads in the deeds. -/
theorem reading_eq {β : Type} {f : Happening → Option β} (hInsert : ∀ rows, f (.insert rows) = none)
    (hFailed : ∀ rows e, f (.inserted rows (.error e)) = none)
    (h : Chronicle settings w journal deeds) :
    (calls journal).filterMap f = (deeds.flatMap Deed.calls).filterMap f := by
  obtain ⟨-, failures, pending, hUnderway, hJournal⟩ := h
  have hAttempts := fun rows => Deed.failedAttempts_filterMap hInsert hFailed rows failures
  rw [hJournal, List.filterMap_append]
  obtain rfl | ⟨rows, rfl | rfl⟩ := hUnderway.pending_cases
  · simp
  · simp [hAttempts]
  · simp [hAttempts, hInsert]

theorem arrivals_eq (h : Chronicle settings w journal deeds) :
    arrivals journal = Deed.allArrivals deeds := by
  obtain ⟨-, failures, pending, hUnderway, hJournal⟩ := h
  rw [← arrivals_calls, hJournal, arrivals_append, Deed.arrivals_flatMap_calls]
  obtain rfl | ⟨rows, rfl | rfl⟩ := hUnderway.pending_cases <;> simp

theorem stored_eq (h : Chronicle settings w journal deeds) :
    stored journal = (Deed.storedBatches deeds).map Batch.rows := by
  rw [← stored_calls, ← Deed.stored_flatMap_calls]
  exact h.reading_eq (fun _ => rfl) fun _ _ => rfl

theorem mem_journal (h : Chronicle settings w journal deeds) {deed : Deed} (hDeed : deed ∈ deeds)
    {call : Happening} (hCall : call ∈ deed.calls) : call ∈ journal := by
  obtain ⟨-, failures, pending, -, hJournal⟩ := h
  apply mem_of_mem_calls
  rw [hJournal]
  exact List.mem_append_left _ (List.mem_flatMap.mpr ⟨deed, hDeed, hCall⟩)

/-- The deeds are all that the worker did, unless it writes a batch. -/
theorem calls_eq (h : Chronicle settings w journal deeds)
    (hPhase : ∀ flush writing, w.phase ≠ .writing flush writing) :
    calls journal = deeds.flatMap Deed.calls := by
  obtain ⟨-, failures, pending, hUnderway, hJournal⟩ := h
  rw [hJournal, hUnderway.eq_nil hPhase, List.append_nil]

end Chronicle

/-- The buffer is empty while a batch is written, and when the worker stops. -/
def Tidy (w : Worker φ ψ) : Prop :=
  match w.phase with
  | .writing .. | .stopping | .stopped => w.buffer.batch = []
  | _ => True

theorem tidy_of_empty {w : Worker φ ψ} (h : w.buffer.batch = []) : w.Tidy := by
  unfold Tidy
  split <;> first | exact h | trivial

theorem beginFlush_tidy (setup : Setup σ τ φ ψ) (now : Instant) (next : Next)
    (s : Scene σ τ φ ψ) : (beginFlush setup now next s).1.worker.Tidy := by
  apply tidy_of_empty
  simp only [beginFlush]
  split <;> rfl

theorem onFetch_tidy (now : Instant) (s : Scene σ τ φ ψ) (f : Fetch φ) :
    (onFetch now s f).1.worker.Tidy := by
  match f with
  | .answered (.ok _) | .answered (.error _) | .waiting .. | .stalled | .crashed => trivial

theorem step_tidy (setup : Setup σ τ φ ψ) (now : Instant) (s : Scene σ τ φ ψ)
    (h : s.worker.Tidy) : (step setup now s).1.worker.Tidy := by
  cases hphase : s.worker.phase with
  | starting | stalled =>
    simp only [step, hphase]
    trivial
  | polling =>
    simp only [step, hphase, poll]
    split
    · trivial
    · split
      · exact beginFlush_tidy ..
      · exact onFetch_tidy ..
  | fetching due call =>
    simp only [step, hphase]
    split
    · trivial
    · exact onFetch_tidy ..
  | pausing due =>
    simp only [step, hphase]
    split <;> trivial
  | absorbing rest rejected =>
    simp only [step, hphase]
    cases rest with
    | nil => trivial
    | cons d rest =>
      simp only [absorb]
      split
      · split
        · exact beginFlush_tidy ..
        · trivial
      · trivial
  | writing flush writing =>
    have hEmpty : s.worker.buffer.batch = [] := by simpa [Tidy, hphase] using h
    apply tidy_of_empty
    simp only [step, hphase]
    split
    · exact hEmpty
    · exact hEmpty
  | draining =>
    simp only [step, hphase]
    split
    · rename_i hLength
      exact List.length_eq_zero_iff.mp hLength
    · exact beginFlush_tidy ..
  | stopping =>
    simp only [Tidy, hphase] at h
    simp only [step, hphase]
    exact h
  | stopped | crashed => simpa only [step, hphase] using h

end Worker

end EventIngest
