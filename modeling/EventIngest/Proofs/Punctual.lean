import EventIngest.Proofs.Modest
import EventIngest.Proofs.Timed
/-!
# Punctual workers

What the clock and the deadline of a worker have to do with each other before a prompt source. A
fetch ends before the deadline, so the deadline is passed only in the pause after a failed fetch, and
by no more than that pause.
-/
namespace EventIngest.Worker

open Journal

variable {α σ τ φ ψ : Type}

/-- A fetch failed at this instant, not before the timer was restarted nor after the deadline. -/
def FailedAt (journal : List (Instant × Happening)) (b : Buffer) (t : Instant) : Prop :=
  (∃ e, (t, .fetched (.error e)) ∈ journal) ∧ b.deadline ≤ t + b.timeout ∧ t ≤ b.deadline

/-- The deadline has not passed, or a fetch failed before it and at most a pause ago. -/
def Punctual (now : Instant) (journal : List (Instant × Happening)) (b : Buffer) : Prop :=
  now ≤ b.deadline ∨ ∃ t, FailedAt journal b t ∧ now ≤ t + fetchPause

theorem FailedAt.append {journal : List (Instant × Happening)} {b : Buffer} {t : Instant}
    (h : FailedAt journal b t) (new : List (Instant × Happening)) :
    FailedAt (journal ++ new) b t := by
  obtain ⟨⟨e, hMem⟩, hAfter⟩ := h
  exact ⟨⟨e, List.mem_append_left _ hMem⟩, hAfter⟩

theorem Punctual.append {now : Instant} {journal : List (Instant × Happening)} {b : Buffer}
    (h : Punctual now journal b) (new : List (Instant × Happening)) :
    Punctual now (journal ++ new) b := by
  obtain hNow | ⟨t, hFailed, hNow⟩ := h
  · exact .inl hNow
  · exact .inr ⟨t, hFailed.append new, hNow⟩

theorem Punctual.le {now : Instant} {journal : List (Instant × Happening)} {b : Buffer}
    (h : Punctual now journal b) : now ≤ b.deadline + fetchPause := by
  obtain hNow | ⟨t, ⟨-, -, hBefore⟩, hNow⟩ := h
  · exact Nat.le_trans hNow (Nat.le_add_right _ _)
  · exact Nat.le_trans hNow (Nat.add_le_add_right hBefore _)

def Phase.OnTime (rest : φ → Duration) (now : Instant) (cancelled : Bool)
    (journal : List (Instant × Happening)) (b : Buffer) : Phase φ ψ → Prop
  | .polling => Punctual now journal b
  | .draining | .stalled => Punctual now journal b ∧ cancelled = true
  | .absorbing .. => now ≤ b.deadline
  | .fetching due call => now ≤ due ∧ due + rest call ≤ b.deadline
  | .pausing due => now ≤ due ∧ ∃ t, FailedAt journal b t ∧ due = t + fetchPause
  | .starting | .writing .. | .stopping | .stopped | .crashed => True

/-- The timer was restarted at most a timeout before its deadline, and the worker is not late. -/
structure OnTime (rest : φ → Duration) (timeout : Duration) (now : Instant) (cancelled : Bool)
    (journal : List (Instant × Happening)) (w : Worker φ ψ) : Prop where
  timeout : w.buffer.timeout = timeout
  recent : w.buffer.deadline ≤ now + w.buffer.timeout
  phase : w.phase.OnTime rest now cancelled journal w.buffer

section OnTime

variable {setup : Setup σ τ φ ψ} {rest : φ → Duration} {timeout : Duration} {now : Instant}
  {cancelled cancelled' : Bool} {journal : List (Instant × Happening)} {w w' : Worker φ ψ}

theorem onTime_idle (rest : φ → Duration) (settings : WorkerSettings) :
    OnTime rest settings.batchTimeout 0 false [] (idle settings 0 : Worker φ ψ) :=
  ⟨rfl, Nat.le_refl _, trivial⟩

/-- A timer that was restarted now has its deadline ahead. -/
theorem restartTimer_ahead (b : Buffer) (now : Instant) : now ≤ (b.restartTimer now).deadline :=
  Nat.le_add_right now b.timeout

theorem fetch_phase_onTime {f : Fetch φ} {b : Buffer} {due : Instant} (hEnds : f.EndsIn rest due)
    (hDue : now + due ≤ b.deadline) (hRecent : b.deadline ≤ now + b.timeout)
    (hStalls : .fetchStalled ∈ f.entries → cancelled' = true)
    {new : List Happening} (hNew : f.entries ⊆ new) :
    (f.phase (ψ := ψ) now).OnTime rest now cancelled' (journal ++ new.map (now, ·)) b := by
  have hBefore : now ≤ b.deadline := Nat.le_trans (Nat.le_add_right _ _) hDue
  match f with
  | .answered (.ok deliveries) => exact hBefore
  | .answered (.error e) =>
    have hMem : .fetched (.error e) ∈ new := hNew List.mem_cons_self
    refine ⟨Nat.le_add_right _ _, now, ⟨⟨e, ?_⟩, hRecent, hBefore⟩, rfl⟩
    exact List.mem_append_right _ (List.mem_map_of_mem hMem)
  | .waiting time call =>
    have hTime : time + rest call ≤ due := hEnds
    refine ⟨Nat.le_add_right _ _, ?_⟩
    rw [Nat.add_assoc]
    exact Nat.le_trans (Nat.add_le_add_left hTime now) hDue
  | .stalled => exact ⟨.inl hBefore, hStalls List.mem_cons_self⟩
  | .crashed => trivial

theorem Stride.onTime {new : List Happening} (h : Stride setup now cancelled w w' new)
    (hPrompt : setup.intake.Prompt rest) (hOnTime : OnTime rest timeout now cancelled journal w)
    (hCancelled : cancelled' = true ↔ cancelled = true ∨ .fetchStalled ∈ new) :
    OnTime rest timeout now cancelled' (journal ++ new.map (now, ·)) w' := by
  obtain ⟨hTimeout, hRecent, hPhase⟩ := hOnTime
  cases h with
  | start b =>
    exact ⟨hTimeout, Nat.le_refl _, .inl (restartTimer_ahead b now)⟩
  | @leave p b hHeedful hLeaves =>
    refine ⟨hTimeout, hRecent, ?_, ?_⟩
    · cases p with
      | polling => exact Punctual.append hPhase _
      | stalled => exact hPhase.1.append _
      | fetching due call =>
        exact .inl (Nat.le_trans hPhase.1 (Nat.le_trans (Nat.le_add_right _ _) hPhase.2))
      | pausing due =>
        obtain ⟨hNow, t, hFailed, rfl⟩ := hPhase
        exact .inr ⟨t, hFailed.append _, hNow⟩
      | _ => cases hHeedful
    · obtain rfl | rfl := hLeaves
      · exact hCancelled.mpr (.inl hPhase.2)
      · exact hCancelled.mpr (.inl rfl)
  | @expire b hStays hDue hEmpty =>
    exact ⟨hTimeout, Nat.le_refl _, .inl (restartTimer_ahead b now)⟩
  | @ask s b hStays hDue wait hWait f hFetch =>
    refine ⟨hTimeout, hRecent, fetch_phase_onTime (hFetch ▸ hPrompt.fetch s b.room wait) ?_ hRecent
      (fun hStalled => ?_) (List.subset_cons_self _ _)⟩
    · have hLess : wait ≤ b.deadline - now := hWait ▸ Nat.min_le_right _ _
      exact Nat.add_le_of_le_sub' (Nat.le_of_lt hDue) hLess
    · exact hCancelled.mpr (.inr (List.mem_cons_of_mem _ hStalled))
  | @resume s b due call hStays f hFetch =>
    refine ⟨hTimeout, hRecent, fetch_phase_onTime (hFetch ▸ hPrompt.resume s call) ?_ hRecent
      (fun hStalled => hCancelled.mpr (.inr hStalled)) (List.Subset.refl _)⟩
    exact Nat.le_trans (Nat.add_le_add_right hPhase.1 _) hPhase.2
  | rest b due hStays =>
    obtain ⟨hNow, t, hFailed, rfl⟩ := hPhase
    exact ⟨hTimeout, hRecent, .inr ⟨t, hFailed.append _, hNow⟩⟩
  | take rest rejected hParcel hRoom => exact ⟨hTimeout, hRecent, hPhase⟩
  | fill | flush | lastFlush => exact ⟨hTimeout, Nat.le_refl _, trivial⟩
  | refuse b rest rejected hRefusal hPlain => exact ⟨hTimeout, hRecent, hPhase⟩
  | finish b rejected hPlain => exact ⟨hTimeout, hRecent, .inl hPhase⟩
  | retry b flush hRetries hJournal => exact ⟨hTimeout, hRecent, trivial⟩
  | settle b flush w hPlain =>
    refine ⟨hTimeout, Nat.le_refl _, ?_⟩
    cases hNext : flush.next with
    | poll => exact .inl (restartTimer_ahead b now)
    | absorb rest rejected => exact restartTimer_ahead b now
    | stop => trivial
  | empty hEmpty | stop b => exact ⟨hTimeout, hRecent, trivial⟩
  | ended hEnded =>
    refine ⟨hTimeout, hRecent, ?_⟩
    obtain hw | hw := ended_cases hEnded
    · rw [hw]
      trivial
    · rw [hw]
      trivial

/-- Time passes only while the worker waits, and not beyond what it waits for. -/
theorem OnTime.wait (h : OnTime rest timeout now cancelled journal w) {later : Instant}
    (hReady : w.isReady now cancelled = false) (hLater : now ≤ later)
    (hDue : ∀ due, w.due? = some due → later ≤ due) :
    OnTime rest timeout later cancelled journal w := by
  obtain ⟨hTimeout, hRecent, hPhase⟩ := h
  refine ⟨hTimeout, Nat.le_trans hRecent (Nat.add_le_add_right hLater _), ?_⟩
  cases hw : w.phase with
  | polling | absorbing _ _ | draining => simp [isReady, hw] at hReady
  | stalled =>
    rw [hw] at hPhase
    simp [isReady, hw, hPhase.2] at hReady
  | fetching due call =>
    rw [hw] at hPhase
    exact ⟨hDue due (by simp [due?, hw]), hPhase.2⟩
  | pausing due =>
    rw [hw] at hPhase
    exact ⟨hDue due (by simp [due?, hw]), hPhase.2⟩
  | starting | writing _ _ | stopping | stopped | crashed => trivial

theorem OnTime.cancel (h : OnTime rest timeout now cancelled journal w) :
    OnTime rest timeout now true journal w := by
  obtain ⟨hTimeout, hRecent, hPhase⟩ := h
  refine ⟨hTimeout, hRecent, ?_⟩
  cases hw : w.phase with
  | draining | stalled =>
    rw [hw] at hPhase
    exact ⟨hPhase.1, rfl⟩
  | _ =>
    rw [hw] at hPhase
    exact hPhase

/-- Unless the worker crashed or has nothing in its buffer, the deadline is passed by a pause at
most. -/
theorem OnTime.le_deadline {most : φ → Nat} {size : Nat}
    (h : OnTime rest timeout now cancelled journal w) (hSnug : w.Snug most size)
    (hBatch : w.buffer.batch ≠ []) (hRuns : w.hasCrashed = false) :
    now ≤ w.buffer.deadline + fetchPause := by
  obtain ⟨-, hFits⟩ := hSnug
  have hPhase := h.phase
  cases hw : w.phase with
  | polling =>
    rw [hw] at hPhase
    exact Punctual.le hPhase
  | draining | stalled =>
    rw [hw] at hPhase
    exact hPhase.1.le
  | absorbing _ _ =>
    rw [hw] at hPhase
    exact Nat.le_trans hPhase (Nat.le_add_right _ _)
  | fetching due call =>
    rw [hw] at hPhase
    have hDue : due ≤ w.buffer.deadline := Nat.le_trans (Nat.le_add_right _ _) hPhase.2
    exact Nat.le_trans hPhase.1 (Nat.le_trans hDue (Nat.le_add_right _ _))
  | pausing due =>
    rw [hw] at hPhase
    obtain ⟨hNow, t, ⟨-, -, hBefore⟩, rfl⟩ := hPhase
    exact Nat.le_trans hNow (Nat.add_le_add_right hBefore _)
  | starting | stopping | stopped =>
    rw [hw] at hFits
    exact absurd hFits hBatch
  | writing flush writing =>
    rw [hw] at hFits
    exact absurd hFits.1 hBatch
  | crashed => simp [hasCrashed, hw] at hRuns

end OnTime

end EventIngest.Worker
