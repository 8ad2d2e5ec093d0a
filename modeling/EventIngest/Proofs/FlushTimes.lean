import EventIngest.Proofs.Punctual
import EventIngest.Store.Planned
/-!
# When batches are sent

Events are dated when they arrive. Those in the buffer arrived after its timer was restarted, so
none gets much older than the timeout before it is sent.
-/
namespace EventIngest.Worker

open Journal

variable {α σ τ φ ψ : Type}

def arrivalTimes (journal : List (Instant × Happening)) : List (Instant × Parcel) :=
  journal.flatMap fun e => (e.2.deliveries.filterMap Delivery.parcel?).map (e.1, ·)

theorem arrivalTimes_append (a b : List (Instant × Happening)) :
    arrivalTimes (a ++ b) = arrivalTimes a ++ arrivalTimes b := List.flatMap_append

theorem arrivalTimes_map (now : Instant) (new : List Happening) :
    arrivalTimes (new.map (now, ·))
      = ((arrivals new).filterMap Delivery.parcel?).map (now, ·) := by
  induction new with
  | nil => rfl
  | cons h new ih =>
    rw [arrivals_cons, List.filterMap_append, List.map_append, ← ih]
    rfl

/-- The event was part of an insert that began at most so long after it arrived. -/
def SentWithin (limit : Duration) (journal : List (Instant × Happening)) (e : Instant × Parcel) :
    Prop :=
  ∃ t rows, (t, .insert rows) ∈ journal ∧ .ofEvent e.2.event ∈ rows ∧ e.1 ≤ t ∧ t ≤ e.1 + limit

theorem SentWithin.append {limit : Duration} {journal : List (Instant × Happening)}
    {e : Instant × Parcel} (h : SentWithin limit journal e) (new : List (Instant × Happening)) :
    SentWithin limit (journal ++ new) e := by
  obtain ⟨t, rows, hMem, hSent⟩ := h
  exact ⟨t, rows, List.mem_append_left _ hMem, hSent⟩

/-- Of the events that arrived some were sent, some are in the buffer since its timer was restarted,
and the last ones have arrived now. -/
structure Dated (limit : Duration) (now : Instant) (journal : List (Instant × Happening))
    (w : Worker φ ψ) (gone since coming : List (Instant × Parcel)) : Prop where
  arrived : arrivalTimes journal = gone ++ since ++ coming
  buffered : since.map Prod.snd = w.buffer.batch
  coming : coming = (w.phase.coming.filterMap Delivery.parcel?).map (now, ·)
  fresh : ∀ e ∈ since, e.1 ≤ now ∧ w.buffer.deadline ≤ e.1 + w.buffer.timeout
  sent : ∀ e ∈ gone, SentWithin limit journal e

namespace Dated

variable {limit : Duration} {now : Instant} {journal : List (Instant × Happening)}
  {w w' : Worker φ ψ} {gone since coming : List (Instant × Parcel)} {new : List Happening}

theorem idle (limit : Duration) (settings : WorkerSettings) (now : Instant) :
    Dated limit now [] (Worker.idle settings now : Worker φ ψ) [] [] [] :=
  ⟨rfl, rfl, rfl, List.forall_mem_nil _, List.forall_mem_nil _⟩

theorem since_nil (h : Dated limit now journal w gone since coming) (hBatch : w.buffer.batch = []) :
    since = [] := List.map_eq_nil_iff.mp (h.buffered.trans hBatch)

/-- Nothing arrives, and the buffer stays as it is. -/
theorem keep (h : Dated limit now journal w gone since coming) (hNew : arrivals new = [])
    (hBuffer : w'.buffer = w.buffer)
    (hComing : w'.phase.coming.filterMap Delivery.parcel?
      = w.phase.coming.filterMap Delivery.parcel?) :
    Dated limit now (journal ++ new.map (now, ·)) w' gone since coming where
  arrived := by
    rw [arrivalTimes_append, arrivalTimes_map, hNew, h.arrived]
    exact List.append_nil _
  buffered := by rw [hBuffer, h.buffered]
  coming := by rw [hComing, h.coming]
  fresh := by
    rw [hBuffer]
    exact h.fresh
  sent e he := (h.sent e he).append _

/-- The timer of an empty buffer is restarted. -/
theorem restart (h : Dated limit now journal w gone since coming) (hNew : arrivals new = [])
    (hBatch : w.buffer.batch = []) (hBatch' : w'.buffer.batch = [])
    (hComing : w'.phase.coming = w.phase.coming) :
    Dated limit now (journal ++ new.map (now, ·)) w' gone since coming where
  arrived := by
    rw [arrivalTimes_append, arrivalTimes_map, hNew, h.arrived]
    exact List.append_nil _
  buffered := by rw [hBatch', h.buffered, hBatch]
  coming := by rw [hComing, h.coming]
  fresh := by
    rw [h.since_nil hBatch]
    exact List.forall_mem_nil _
  sent e he := (h.sent e he).append _

/-- Deliveries arrive when none are left from before. -/
theorem arrive (h : Dated limit now journal w gone since coming) (hBefore : w.phase.coming = [])
    (hBuffer : w'.buffer = w.buffer) (hNew : arrivals new = w'.phase.coming) :
    Dated limit now (journal ++ new.map (now, ·)) w' gone since
      ((w'.phase.coming.filterMap Delivery.parcel?).map (now, ·)) where
  arrived := by
    have hNone : coming = [] := by rw [h.coming, hBefore]; rfl
    rw [arrivalTimes_append, arrivalTimes_map, hNew, h.arrived, hNone, List.append_nil]
  buffered := by rw [hBuffer, h.buffered]
  coming := rfl
  fresh := by
    rw [hBuffer]
    exact h.fresh
  sent e he := (h.sent e he).append _

/-- The next event is put into the buffer. -/
theorem take (h : Dated limit now journal w gone since coming) {p : Parcel}
    {rest : List (Instant × Parcel)} (hTaken : coming = (now, p) :: rest)
    (hBuffer : w'.buffer = w.buffer.push p)
    (hRest : rest = (w'.phase.coming.filterMap Delivery.parcel?).map (now, ·))
    (hRecent : w.buffer.deadline ≤ now + w.buffer.timeout) :
    Dated limit now (journal ++ [].map (now, ·)) w' gone (since ++ [(now, p)]) rest where
  arrived := by
    rw [List.map_nil, List.append_nil, h.arrived, hTaken]
    simp only [List.append_assoc, List.singleton_append]
  buffered := by
    rw [hBuffer, List.map_append, h.buffered]
    rfl
  coming := hRest
  fresh := by
    rw [hBuffer]
    intro e he
    obtain hOld | hNew := List.mem_append.mp he
    · exact h.fresh e hOld
    · obtain rfl := List.mem_singleton.mp hNew
      exact ⟨Nat.le_refl _, hRecent⟩
  sent e he := (h.sent e he).append _

/-- The buffer is sent, with an event that has just arrived or without one. -/
theorem send (h : Dated limit now journal w gone since coming) {taken rest : List (Instant × Parcel)}
    (hTaken : coming = taken ++ rest) (hNew : arrivals new = [])
    (hRest : rest = (w'.phase.coming.filterMap Delivery.parcel?).map (now, ·))
    (hBatch : w'.buffer.batch = [])
    (hInsert : .insert (Batch.rows ((since ++ taken).map Prod.snd)) ∈ new)
    (hAge : ∀ e ∈ since, now ≤ e.1 + limit) :
    Dated limit now (journal ++ new.map (now, ·)) w' (gone ++ since ++ taken) [] rest where
  arrived := by
    rw [arrivalTimes_append, arrivalTimes_map, hNew, h.arrived, hTaken]
    simp only [List.filterMap_nil, List.map_nil, List.append_nil, List.append_assoc]
  buffered := hBatch.symm
  coming := hRest
  fresh := List.forall_mem_nil _
  sent e he := by
    rw [List.append_assoc] at he
    obtain hGone | hSent := List.mem_append.mp he
    · exact (h.sent e hGone).append _
    refine ⟨now, _, List.mem_append_right _ (List.mem_map_of_mem hInsert),
      List.mem_map_of_mem (List.mem_map_of_mem hSent), ?_⟩
    obtain hSince | hNow := List.mem_append.mp hSent
    · exact ⟨(h.fresh e hSince).1, hAge e hSince⟩
    · have hComing : e ∈ coming := hTaken ▸ List.mem_append_left _ hNow
      rw [h.coming] at hComing
      obtain ⟨p, -, rfl⟩ := List.mem_map.mp hComing
      exact ⟨Nat.le_refl _, Nat.le_add_right _ _⟩

/-- The same later, when nothing is left to be taken in. -/
theorem wait (h : Dated limit now journal w gone since coming) (hComing : w.phase.coming = [])
    {later : Instant} (hLater : now ≤ later) : Dated limit later journal w gone since coming where
  arrived := h.arrived
  buffered := h.buffered
  coming := by rw [h.coming, hComing]; rfl
  fresh e he := ⟨Nat.le_trans (h.fresh e he).1 hLater, (h.fresh e he).2⟩
  sent := h.sent

variable {rest : φ → Duration} {timeout : Duration} {most : φ → Nat} {size : Nat}
  {cancelled : Bool}

/-- No event in the buffer is much older than the timeout. -/
theorem age (h : Dated limit now journal w gone since coming)
    (hOnTime : OnTime rest timeout now cancelled journal w) (hSnug : w.Snug most size)
    (hRuns : w.hasCrashed = false) : ∀ e ∈ since, now ≤ e.1 + (timeout + fetchPause) := by
  intro e he
  have hBatch : w.buffer.batch ≠ [] := by
    rw [← h.buffered]
    exact List.ne_nil_of_mem (List.mem_map_of_mem he)
  have hDeadline := hOnTime.le_deadline hSnug hBatch hRuns
  have hFresh := (h.fresh e he).2
  rw [hOnTime.timeout] at hFresh
  rw [← Nat.add_assoc]
  exact Nat.le_trans hDeadline (Nat.add_le_add_right hFresh _)

end Dated

section Stride

variable {setup : Setup σ τ φ ψ} {rest : φ → Duration} {timeout : Duration} {most : φ → Nat}
  {size : Nat} {now : Instant} {cancelled : Bool} {journal : List (Instant × Happening)}
  {w w' : Worker φ ψ} {gone since coming : List (Instant × Parcel)} {new : List Happening}

theorem arrivals_entries (f : Fetch φ) :
    arrivals f.entries = (f.phase (ψ := ψ) now).coming := by
  match f with
  | .answered (.ok deliveries) => exact List.append_nil _
  | .answered (.error _) | .waiting .. | .stalled | .crashed => rfl

theorem Stride.dated (h : Stride setup now cancelled w w' new)
    (hOnTime : OnTime rest timeout now cancelled journal w) (hSnug : w.Snug most size)
    (hDated : Dated (timeout + fetchPause) now journal w gone since coming) :
    ∃ gone since coming,
      Dated (timeout + fetchPause) now (journal ++ new.map (now, ·)) w' gone since coming := by
  have hAge := hDated.age hOnTime hSnug
  cases h with
  | start b => exact ⟨_, _, _, hDated.restart rfl hSnug.2 hSnug.2 rfl⟩
  | @leave p b hHeedful hLeaves =>
    refine ⟨_, _, _, hDated.keep rfl rfl ?_⟩
    cases p with
    | polling | fetching _ _ | pausing _ | stalled => rfl
    | _ => cases hHeedful
  | expire hStays hDue hEmpty => exact ⟨_, _, _, hDated.restart rfl hEmpty rfl rfl⟩
  | ask s hStays hDue hWait hFetch =>
    exact ⟨_, _, _, hDated.arrive rfl rfl (arrivals_entries _)⟩
  | resume s b due hStays hFetch =>
    exact ⟨_, _, _, hDated.arrive rfl rfl (arrivals_entries _)⟩
  | rest b due hStays => exact ⟨_, _, _, hDated.keep rfl rfl rfl⟩
  | @take b d p rest rejected hParcel hRoom =>
    have hTaken : coming = (now, p) :: (rest.filterMap Delivery.parcel?).map (now, ·) := by
      rw [hDated.coming]
      exact congrArg (List.map _) (List.filterMap_cons_some hParcel)
    exact ⟨_, _, _, hDated.take hTaken rfl rfl hOnTime.recent⟩
  | @fill b d p rest rejected hParcel hFull due call =>
    have hTaken : coming = [(now, p)] ++ (rest.filterMap Delivery.parcel?).map (now, ·) := by
      rw [hDated.coming]
      exact congrArg (List.map _) (List.filterMap_cons_some hParcel)
    refine ⟨_, _, _, hDated.send hTaken rfl rfl rfl ?_ (hAge rfl)⟩
    rw [List.map_append, hDated.buffered]
    exact List.mem_cons_self
  | @refuse b d rest rejected hRefusal _ hPlain =>
    refine ⟨_, _, _, hDated.keep hPlain.arrivals rfl ?_⟩
    exact (List.filterMap_cons_none hRefusal).symm
  | finish b rejected hPlain => exact ⟨_, _, _, hDated.keep hPlain.arrivals rfl rfl⟩
  | flush hStays hDue hBatch due call =>
    refine ⟨_, _, _, hDated.send (List.nil_append coming).symm rfl hDated.coming rfl ?_ (hAge rfl)⟩
    rw [List.append_nil, hDated.buffered]
    exact List.mem_cons_self
  | lastFlush hBatch due call =>
    refine ⟨_, _, _, hDated.send (List.nil_append coming).symm rfl hDated.coming rfl ?_ (hAge rfl)⟩
    rw [List.append_nil, hDated.buffered]
    exact List.mem_cons_of_mem _ List.mem_cons_self
  | retry b flush hRetries hJournal =>
    refine ⟨_, _, _, hDated.keep ?_ rfl rfl⟩
    obtain hPlain | rfl := hJournal
    · exact hPlain.arrivals
    · rfl
  | settle b flush w hPlain =>
    obtain ⟨-, hEmpty, hComing, -⟩ := hSnug
    exact ⟨_, _, _, hDated.restart hPlain.arrivals hEmpty hEmpty flush.next.phase_coming⟩
  | empty hEmpty | stop b => exact ⟨_, _, _, hDated.keep rfl rfl rfl⟩
  | ended hEnded => exact ⟨_, _, _, hDated.keep rfl rfl rfl⟩

/-- The worker begins, ends a flush, or finds that its deadline has come with nothing to send. -/
def restartsTimer (now : Instant) (cancelled : Bool) (w w' : Worker φ ψ) : Bool :=
  match w.phase with
  | .starting => true
  | .polling => !cancelled && w.buffer.isDue now && w.buffer.batch.isEmpty
  | .writing .. => !w'.phase.isWriting
  | _ => false

/-- Unless a batch is written, the deadline comes a timeout after this instant. -/
def Ticks (timeout : Duration) (t : Instant) (w : Worker φ ψ) : Prop :=
  w.buffer.timeout = timeout ∧ (w.phase.isWriting = false → w.buffer.deadline = t + timeout)

theorem Stride.ticks {t : Instant} (h : Stride setup now cancelled w w' new)
    (hTicks : w.Ticks timeout t) :
    w'.Ticks timeout (if restartsTimer now cancelled w w' then now else t) := by
  obtain ⟨hTimeout, hDeadline⟩ := hTicks
  have hNow : now + w.buffer.timeout = now + timeout := by rw [hTimeout]
  cases h with
  | start b => exact ⟨hTimeout, fun _ => hNow⟩
  | @leave p b hHeedful hLeaves =>
    refine ⟨hTimeout, fun _ => ?_⟩
    cases p with
    | polling =>
      obtain hPhase | rfl := hLeaves
      · cases hPhase
      · exact hDeadline rfl
    | fetching _ _ | pausing _ | stalled => exact hDeadline rfl
    | _ => cases hHeedful
  | @expire b hStays hDue hEmpty =>
    have hRestarts : restartsTimer now cancelled (⟨.polling, b⟩ : Worker φ ψ)
        ⟨.polling, b.emptied now⟩ = true := by
      simp [restartsTimer, hStays, Buffer.isDue, hDue, hEmpty]
    rw [if_pos hRestarts]
    exact ⟨hTimeout, fun _ => hNow⟩
  | @ask s b hStays hDue wait hWait f hFetch =>
    refine ⟨hTimeout, fun _ => ?_⟩
    have hNot : b.isDue now = false := decide_eq_false (Nat.not_le_of_lt hDue)
    simpa [restartsTimer, hNot] using hDeadline rfl
  | fill | flush | lastFlush => exact ⟨hTimeout, fun h => nomatch h⟩
  | retry b flush hRetries hJournal => exact ⟨hTimeout, fun h => nomatch h⟩
  | settle b flush w hPlain =>
    refine ⟨hTimeout, fun hEnds => ?_⟩
    have hRestarts : restartsTimer now cancelled (⟨.writing flush w, b⟩ : Worker φ ψ)
        ⟨flush.next.phase, b.restartTimer now⟩ = true := by
      simpa [restartsTimer] using hEnds
    rw [if_pos hRestarts]
    exact hNow
  | resume | rest | take | refuse | finish | empty | stop =>
    exact ⟨hTimeout, fun _ => hDeadline rfl⟩
  | ended hEnded =>
    refine ⟨hTimeout, ?_⟩
    obtain hw | hw := ended_cases hEnded
    · simpa [restartsTimer, hw] using hDeadline
    · simpa [restartsTimer, hw] using hDeadline

end Stride

namespace Timed

def restartAfter (setup : Setup σ τ φ ψ) (c : Timed σ τ φ ψ) (t : Instant) : Turn α τ → Instant
  | .go =>
    if c.isReady &&
        restartsTimer c.now c.scene.cancelled c.scene.worker (c.moved setup).scene.worker then c.now
    else t
  | _ => t

/-- When the timer was last restarted in a run, if it was at `t` before it. -/
def restartedAt (setup : Setup σ τ φ ψ) (act : α → σ → σ) :
    List (Turn α τ) → Timed σ τ φ ψ → Instant → Instant
  | [], _, t => t
  | u :: us, c, t => restartedAt setup act us (c.turn setup act u) (c.restartAfter setup t u)

theorem run_ticks (setup : Setup σ τ φ ψ) (act : α → σ → σ) {timeout : Duration} {t : Instant}
    {c : Timed σ τ φ ψ} (h : c.scene.worker.Ticks timeout t) (turns : List (Turn α τ)) :
    (run setup act turns c).scene.worker.Ticks timeout (restartedAt setup act turns c t) := by
  induction turns generalizing c t with
  | nil => exact h
  | cons u turns ih =>
    apply ih (c := c.turn setup act u)
    cases u with
    | go =>
      simp only [turn, restartAfter]
      cases hReady : c.isReady with
      | true => exact (step_stride setup c.now c.scene).ticks h
      | false => exact h
    | wait later =>
      simp only [turn, restartAfter]
      split <;> exact h
    | cancel | outside _ | store _ | counters _ => exact h

section Run

variable {setup : Setup σ τ φ ψ} {most : φ → Nat} {rest : φ → Duration}

/-- What the clock, the buffer and the events that arrived have to do with each other. -/
structure InTime (most : φ → Nat) (rest : φ → Duration) (settings : WorkerSettings)
    (c : Timed σ τ φ ψ) : Prop where
  snug : c.scene.worker.Snug most settings.batchSize
  onTime : OnTime rest settings.batchTimeout c.now c.scene.cancelled c.journal c.scene.worker
  dated : ∃ gone since coming,
    Dated (settings.batchTimeout + fetchPause) c.now c.journal c.scene.worker gone since coming

theorem inTime_start (most : φ → Nat) (rest : φ → Duration) (settings : WorkerSettings)
    (source : σ) (store : τ) :
    InTime most rest settings (start settings source store : Timed σ τ φ ψ) :=
  ⟨snug_idle most settings 0, onTime_idle rest settings, _, _, _, .idle _ settings 0⟩

theorem InTime.moved {c : Timed σ τ φ ψ} (h : c.InTime most rest setup.settings)
    (hModest : setup.intake.Modest most) (hPrompt : setup.intake.Prompt rest) :
    (c.moved setup).InTime most rest setup.settings := by
  have hStride := step_stride setup c.now c.scene
  obtain ⟨gone, since, coming, hDated⟩ := h.dated
  exact ⟨hStride.snug hModest h.snug,
    hStride.onTime hPrompt h.onTime (step_cancelled_iff setup c.now c.scene),
    hStride.dated h.onTime h.snug hDated⟩

/-- A worker that must wait has taken in all that arrived. -/
theorem InTime.coming_nil {c : Timed σ τ φ ψ} {settings : WorkerSettings}
    (h : c.InTime most rest settings) (hReady : c.isReady = false) :
    c.scene.worker.phase.coming = [] := by
  have hFits := h.snug.2
  cases hw : c.scene.worker.phase with
  | absorbing _ _ => simp [isReady, Worker.isReady, hw] at hReady
  | writing flush w =>
    rw [hw] at hFits
    exact hFits.2.1
  | _ => rfl

theorem run_inTime (act : α → σ → σ) (hModest : setup.intake.Modest most)
    (hPrompt : setup.intake.Prompt rest) (source : σ) (store : τ) (turns : List (Turn α τ)) :
    InTime most rest setup.settings (run setup act turns (start setup.settings source store)) := by
  refine run_keeps (P := fun c => c.InTime most rest setup.settings) ?_ ?_ ?_ ?_ act
    (inTime_start most rest setup.settings source store) turns
  · exact fun c h _ => h.moved hModest hPrompt
  · intro c later h hWait
    obtain ⟨hReady, hLater, hDue⟩ := mayWait_iff.mp hWait
    obtain ⟨gone, since, coming, hDated⟩ := h.dated
    exact ⟨h.snug, h.onTime.wait hReady hLater hDue, gone, since, coming,
      hDated.wait (h.coming_nil hReady) hLater⟩
  · exact fun c h => ⟨h.snug, h.onTime.cancel, h.dated⟩
  · exact fun c source store counters h => ⟨h.snug, h.onTime, h.dated⟩

end Run

/-- A fetch asks for as much as fits into the buffer, and is over when the deadline comes. -/
structure FetchesInTime (settings : WorkerSettings) (c : Timed σ τ φ ψ) (restart : Instant)
    (max : Nat) (wait : Duration) : Prop where
  max_eq : max = settings.batchSize - c.scene.worker.buffer.batch.length
  max_pos : 0 < max
  max_le : max ≤ settings.batchSize
  wait_pos : 0 < wait
  wait_le : wait ≤ settings.fetchWait
  ends : c.now + wait ≤ restart + settings.batchTimeout

/-- A full batch is sent the moment its last event has arrived. A smaller one is sent at the deadline,
or within a pause after a fetch that failed before the deadline, or when the work was cancelled. -/
structure SendsInTime (settings : WorkerSettings) (c : Timed σ τ φ ψ) (restart : Instant)
    (since coming : List (Instant × Parcel)) (new : List Happening) (rows : List Row) : Prop where
  full : rows.length = settings.batchSize →
    ∃ p, coming = [(c.now, p)] ∧ rows = Batch.rows (since.map Prod.snd ++ [p])
  short : rows.length < settings.batchSize → rows = Batch.rows (since.map Prod.snd) ∧
    (c.now = restart + settings.batchTimeout ∨
      (∃ t e, (t, .fetched (.error e)) ∈ c.journal ∧ restart ≤ t ∧
        t ≤ restart + settings.batchTimeout ∧ restart + settings.batchTimeout ≤ c.now ∧
        c.now ≤ t + fetchPause) ∨
      (c.scene.cancelled = true ∧ .notice (.lastFlush rows.length) ∈ new))

section Moves

variable {setup : Setup σ τ φ ψ} {most : φ → Nat} {rest : φ → Duration} {c : Timed σ τ φ ψ}
  {restart : Instant}

theorem InTime.fetches (h : c.InTime most rest setup.settings)
    (hTicks : c.scene.worker.Ticks setup.settings.batchTimeout restart)
    (hSize : 0 < setup.settings.batchSize) (hWait : 0 < setup.settings.fetchWait) {max : Nat}
    {wait : Duration}
    (hFetch : .fetch max wait ∈ (step setup c.now c.scene).2) :
    c.FetchesInTime setup.settings restart max wait := by
  obtain ⟨hPhase, -, hDue, hMax, rfl⟩ := (step_stride setup c.now c.scene).of_fetch hFetch
  obtain ⟨hCapacity, hFits⟩ := h.snug
  have hDeadline := hTicks.2 (by rw [hPhase]; rfl)
  rw [hPhase] at hFits
  rw [Buffer.room, hCapacity] at hMax
  have hLess := Buffer.IsFree.lt_of_pos hFits hSize
  refine ⟨hMax, ?_, ?_, ?_, Nat.min_le_left _ _, ?_⟩
  · rw [hMax]
    exact Nat.sub_pos_of_lt hLess
  · rw [hMax]
    exact Nat.sub_le _ _
  · exact Nat.lt_min.mpr ⟨hWait, Nat.sub_pos_of_lt hDue⟩
  · rw [← hDeadline]
    exact Nat.add_le_of_le_sub' (Nat.le_of_lt hDue) (Nat.min_le_right _ _)

theorem InTime.length_rows (h : c.InTime most rest setup.settings) {rows : List Row}
    (hInsert : .insert rows ∈ (step setup c.now c.scene).2) :
    0 < rows.length ∧ rows.length ≤ setup.settings.batchSize := by
  have hFits := h.snug.2
  obtain ⟨flush, writing, hPhase, rfl⟩ | ⟨batch, hSends, rfl⟩ :=
    (step_stride setup c.now c.scene).of_insert hInsert
  · rw [hPhase] at hFits
    obtain ⟨-, -, hPos, hMost⟩ := hFits
    rw [Batch.rows, List.length_map]
    exact ⟨hPos, hMost⟩
  · generalize c.scene.worker.phase = phase at hFits hSends
    rw [Batch.rows, List.length_map]
    cases hSends with
    | fill rest rejected hParcel hFull =>
      rw [List.length_append]
      exact ⟨Nat.succ_pos _, Nat.le_trans (Nat.add_le_add_left (Nat.succ_pos _) _) hFits.2⟩
    | flush hStays hDue hBatch => exact ⟨List.length_pos_iff.mpr hBatch, Buffer.IsFree.le hFits⟩
    | last hBatch hNotice => exact ⟨List.length_pos_iff.mpr hBatch, Buffer.IsFree.le hFits⟩

theorem InTime.sends (h : c.InTime most rest setup.settings)
    (hTicks : c.scene.worker.Ticks setup.settings.batchTimeout restart)
    {gone since coming : List (Instant × Parcel)} {limit : Duration}
    (hDated : Dated limit c.now c.journal c.scene.worker gone since coming) {rows : List Row}
    (hFirst : c.scene.worker.phase.isWriting = false)
    (hInsert : .insert rows ∈ (step setup c.now c.scene).2) :
    c.SendsInTime setup.settings restart since coming (step setup c.now c.scene).2 rows := by
  obtain ⟨flush, writing, hPhase, -⟩ | ⟨batch, hSends, rfl⟩ :=
    (step_stride setup c.now c.scene).of_insert hInsert
  · rw [hPhase] at hFirst
    cases hFirst
  have hLast := h.snug.rest_nil
  obtain ⟨hCapacity, hFits⟩ := h.snug
  have hPhase := h.onTime.phase
  have hTimeout := h.onTime.timeout
  have hDeadline := hTicks.2 hFirst
  have hComing := hDated.coming
  have hLength : (Batch.rows batch).length = batch.length := List.length_map _
  generalize c.scene.worker.phase = phase at hFits hSends hPhase hComing hLast
  cases hSends with
  | @fill d p left rejected hParcel hFull =>
    have hLeft : left = [] := hLast rfl hFull
    rw [hCapacity] at hFull
    have hFullLength : (c.scene.worker.buffer.batch ++ [p]).length
      = c.scene.worker.buffer.batch.length + 1 := List.length_append
    refine ⟨fun _ => ⟨p, ?_, ?_⟩, fun hShort => absurd hShort ?_⟩
    · rw [hComing, hLeft]
      exact congrArg (List.map _) (List.filterMap_cons_some hParcel)
    · rw [hDated.buffered]
    · rw [hLength, hFullLength]
      exact Nat.not_lt_of_le hFull
  | flush hStays hDue hBatch =>
    have hLess := Buffer.IsFree.lt_of_ne hFits hBatch
    refine ⟨fun hFull => absurd (hLength.symm.trans hFull) (Nat.ne_of_lt hLess), fun _ => ⟨?_, ?_⟩⟩
    · rw [hDated.buffered]
    · rw [hDeadline] at hDue
      obtain hBefore | ⟨t, ⟨⟨e, hFailed⟩, hSince, hBefore⟩, hPause⟩ := hPhase
      · rw [hDeadline] at hBefore
        exact .inl (Nat.le_antisymm hBefore hDue)
      · rw [hDeadline, hTimeout] at hSince
        rw [hDeadline] at hBefore
        exact .inr (.inl ⟨t, e, hFailed, Nat.le_of_add_le_add_right hSince, hBefore, hDue, hPause⟩)
  | last hBatch hNotice =>
    have hLess := Buffer.IsFree.lt_of_ne hFits hBatch
    refine ⟨fun hFull => absurd (hLength.symm.trans hFull) (Nat.ne_of_lt hLess), fun _ => ⟨?_, ?_⟩⟩
    · rw [hDated.buffered]
    · rw [hLength]
      exact .inr (.inr ⟨hPhase.2, hNotice⟩)

/-- A deadline that comes when there is nothing to send only restarts the timer. -/
theorem moved_expired (hPolling : c.scene.worker.phase = .polling)
    (hStays : c.scene.cancelled = false) (hEmpty : c.scene.worker.buffer.batch = [])
    (hDue : c.scene.worker.buffer.deadline ≤ c.now) :
    (step setup c.now c.scene).2 = [] ∧
      (c.moved setup).scene.worker = ⟨.polling, c.scene.worker.buffer.restartTimer c.now⟩ := by
  have hIsDue : c.scene.worker.buffer.isDue c.now = true := decide_eq_true hDue
  have hStep : step setup c.now c.scene = beginFlush setup c.now .poll c.scene := by
    simp only [step, hPolling, hStays, Bool.false_eq_true, if_false, poll, hIsDue, if_true]
  obtain ⟨hWorker, hJournal⟩ := beginFlush_empty setup c.now .poll c.scene hEmpty
  refine ⟨by rw [hStep, hJournal], ?_⟩
  simp only [moved, hStep, hWorker, Next.phase, Buffer.emptied, Buffer.restartTimer, hEmpty]

end Moves

/-- A worker and its next step keep time. Every fetch asks for what fits into the buffer and ends by
the deadline, every insert carries a batch of at most the full size, and what is inserted for the
first time is sent in time; a deadline with nothing to send only restarts the timer. So every event
that left the buffer was sent, and none waited for that much longer than the timeout. -/
structure KeepsTime (setup : Setup σ τ φ ψ) (restart : Instant) (c : Timed σ τ φ ψ)
    (gone since coming : List (Instant × Parcel)) : Prop where
  dated : Dated (setup.settings.batchTimeout + fetchPause) c.now c.journal c.scene.worker gone since
    coming
  age : c.scene.worker.hasCrashed = false →
    ∀ e ∈ since, c.now ≤ e.1 + (setup.settings.batchTimeout + fetchPause)
  fetches : ∀ max wait, .fetch max wait ∈ (step setup c.now c.scene).2 →
    c.FetchesInTime setup.settings restart max wait
  inserts : ∀ rows, .insert rows ∈ (step setup c.now c.scene).2 →
    0 < rows.length ∧ rows.length ≤ setup.settings.batchSize
  sends : c.scene.worker.phase.isWriting = false →
    ∀ rows, .insert rows ∈ (step setup c.now c.scene).2 →
      c.SendsInTime setup.settings restart since coming (step setup c.now c.scene).2 rows
  expires : c.scene.worker.phase = .polling → c.scene.cancelled = false →
    c.scene.worker.buffer.batch = [] → restart + setup.settings.batchTimeout ≤ c.now →
      (step setup c.now c.scene).2 = [] ∧
      (c.moved setup).scene.worker = ⟨.polling, c.scene.worker.buffer.restartTimer c.now⟩

/-- In every run of a worker before a modest and prompt source the worker keeps time. -/
theorem flushes_in_time (setup : Setup σ τ φ ψ) (act : α → σ → σ) {most : φ → Nat}
    {rest : φ → Duration} (hModest : setup.intake.Modest most) (hPrompt : setup.intake.Prompt rest)
    (hSize : 0 < setup.settings.batchSize) (hWait : 0 < setup.settings.fetchWait) (source : σ)
    (store : τ) (turns : List (Turn α τ)) :
    ∃ gone since coming, KeepsTime setup
      (restartedAt setup act turns (start setup.settings source store) 0)
      (run setup act turns (start setup.settings source store)) gone since coming := by
  have hInTime := run_inTime act hModest hPrompt source store turns
  have hTicks := run_ticks setup act
    (⟨rfl, fun _ => rfl⟩ : Ticks setup.settings.batchTimeout 0
      (start setup.settings source store : Timed σ τ φ ψ).scene.worker) turns
  obtain ⟨gone, since, coming, hDated⟩ := hInTime.dated
  refine ⟨gone, since, coming, hDated, hDated.age hInTime.onTime hInTime.snug, ?_, ?_, ?_, ?_⟩
  · exact fun max wait hFetch => hInTime.fetches hTicks hSize hWait hFetch
  · exact fun rows hInsert => hInTime.length_rows hInsert
  · exact fun hFirst rows hInsert => hInTime.sends hTicks hDated hFirst hInsert
  · intro hPolling hStays hEmpty hDue
    refine moved_expired hPolling hStays hEmpty ?_
    rwa [hTicks.2 (by rw [hPolling]; rfl)]

def oneMessage : Queue := ({} : Queue).publish [123, 125]

def oneMessageSetup : Setup Queue PlannedStore Waiting (Option StoreError) :=
  ⟨{}, Queue.source, PlannedStore.store⟩

/-- The worker fetches one event and waits for more until its deadline. -/
def untilDeadline : List (Turn Empty PlannedStore) := List.replicate 24 .go

theorem one_event_sent_at_deadline :
    let c := run oneMessageSetup (fun a : Empty => a.elim) untilDeadline (start {} oneMessage {})
    c.now = .ofSeconds 5 ∧
    c.scene.worker.phase.isWriting = false ∧
    (∃ rows, .insert rows ∈ (step oneMessageSetup c.now c.scene).2) ∧
    ∃ gone since coming, KeepsTime oneMessageSetup
      (restartedAt oneMessageSetup (fun a : Empty => a.elim) untilDeadline
        (start {} oneMessage {}) 0) c gone since coming := by
  refine ⟨by rfl, by rfl, ⟨_, List.mem_cons_self⟩, ?_⟩
  exact flushes_in_time oneMessageSetup _ Queue.modest Queue.prompt (by decide) (by decide)
    oneMessage {} untilDeadline

end Timed

end EventIngest.Worker
