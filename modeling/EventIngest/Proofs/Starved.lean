import EventIngest.Proofs.Drained
import Mathlib.Data.List.Perm.Subperm
/-!
# Starved neighbours

Without a limit to its hand-outs a record without an event comes back with each fetch, before any
new record. As long as such records are fewer than the messages of a whole batch, each fetch that
has room for a whole batch reads on; once they are as many, none reads on, whatever comes after
them.
-/
namespace EventIngest

open Journal

/-- A source of which no call fails that settles messages. -/
structure Source.Obliging {σ φ : Type} (intake : Source σ φ) : Prop where
  ack : ∀ s h, (intake.ack s h).1 = .ok ()
  nak : ∀ s h, (intake.nak s h).1 = .ok ()
  commit : ∀ s, (intake.commit s).1 = .ok ()
  deadLetter : ∀ s h raw reason, (intake.deadLetter s h raw reason).1 = .ok ()

theorem Log.obliging : (Log.source.guarded Guard.free).Obliging :=
  ⟨fun _ _ => rfl, fun _ _ => rfl, fun _ => rfl, fun _ _ _ _ => rfl⟩

section Calm

variable {σ φ : Type}

theorem Source.each_ok {call : σ → Handle → Answer × σ} (h : ∀ s handle, (call s handle).1 = .ok ())
    (b : Batch) (s : σ) : ∀ p ∈ (each call b s).1, p.2 = .ok () := by
  induction b generalizing s with
  | nil => exact List.forall_mem_nil _
  | cons p ps ih => exact List.forall_mem_cons.mpr ⟨h s p.handle, ih _⟩

theorem Deed.failedAttempts_calm (rows : List Row) (failures : List StoreError) :
    ∀ call ∈ failedAttempts rows failures, call.isFailedCall = false := by
  induction failures with
  | nil => exact List.forall_mem_nil _
  | cons e es ih =>
    exact List.forall_mem_cons.mpr ⟨rfl, List.forall_mem_cons.mpr ⟨rfl, ih⟩⟩

theorem Fetch.deeds_calm (f : Fetch φ) : ∀ d ∈ f.deeds, d.IsCalm := by
  match f with
  | .answered (.ok _) | .answered (.error _) | .stalled =>
    exact List.forall_mem_singleton.mpr (List.forall_mem_singleton.mpr rfl)
  | .waiting .. | .crashed => exact List.forall_mem_nil _

theorem Source.each_calm {call : σ → Handle → Answer × σ}
    (h : ∀ s handle, (call s handle).1 = .ok ()) (entry : Handle → Answer → Happening)
    (hEntry : ∀ handle, (entry handle (.ok ())).isFailedCall = false) (b : Batch) (s : σ) :
    ∀ happening ∈ (each call b s).1.map fun p => entry p.1.handle p.2,
      happening.isFailedCall = false := by
  intro happening hIn
  obtain ⟨p, hp, rfl⟩ := List.mem_map.mp hIn
  rw [each_ok h b s p hp]
  exact hEntry _

theorem Source.Obliging.refuse_calm {intake : Source σ φ} (hIntake : intake.Obliging)
    (maxDeliver : Nat) (h : Handle) (m : Malformed) (s : σ) :
    (Deed.reject h m (intake.refuse maxDeliver h m s).1
      (intake.refuse maxDeliver h m s).2.1).IsCalm := by
  obtain hRefuse | ⟨u, -, hRefuse⟩ | ⟨e, hError, -⟩ := intake.refuse_cases maxDeliver h m s
  · rw [hRefuse, hIntake.nak]
    exact List.forall_mem_singleton.mpr rfl
  · rw [hRefuse, hIntake.ack]
    exact List.forall_mem_cons.mpr ⟨rfl, List.forall_mem_singleton.mpr rfl⟩
  · rw [hIntake.deadLetter] at hError
    cases hError

theorem Custody.Move.calm {intake : Source σ φ} (hIntake : intake.Obliging)
    {settings : WorkerSettings} {c c' : Custody φ} {s s' : σ} {new : List Deed}
    (hMove : Move intake settings c s new c' s') : ∀ d ∈ new, d.IsCalm := by
  have hCommit : ∀ s, ∀ call ∈ [Happening.commit (intake.commit s).1],
      call.isFailedCall = false := by
    intro s
    rw [hIntake.commit]
    exact List.forall_mem_singleton.mpr rfl
  cases hMove with
  | rest | leave => exact List.forall_mem_nil _
  | fetch s max wait =>
    exact List.forall_mem_cons.mpr ⟨List.forall_mem_singleton.mpr rfl, Fetch.deeds_calm _⟩
  | resume s call => exact Fetch.deeds_calm _
  | accept => exact List.forall_mem_singleton.mpr (List.forall_mem_nil _)
  | reject s => exact List.forall_mem_singleton.mpr (hIntake.refuse_calm _ _ _ _)
  | commit s => exact List.forall_mem_singleton.mpr (hCommit s)
  | store s =>
    refine List.forall_mem_singleton.mpr (List.forall_mem_append.mpr ⟨List.forall_mem_append.mpr
      ⟨List.forall_mem_append.mpr ⟨Deed.failedAttempts_calm _ _, ?_⟩, ?_⟩, hCommit _⟩)
    · exact List.forall_mem_cons.mpr ⟨rfl, List.forall_mem_singleton.mpr rfl⟩
    · exact Source.each_calm hIntake.ack .ack (fun _ => rfl) _ _
  | giveUp s =>
    refine List.forall_mem_singleton.mpr (List.forall_mem_append.mpr ⟨List.forall_mem_append.mpr
      ⟨Deed.failedAttempts_calm _ _, ?_⟩, hCommit _⟩)
    exact Source.each_calm hIntake.nak .nak (fun _ => rfl) _ _

end Calm

namespace Happening

def asked? : Happening → Option Nat
  | .fetch max _ => some max
  | _ => none

end Happening

namespace Journal

def asked (journal : List Happening) : List Nat := journal.filterMap Happening.asked?

end Journal

namespace Deed

def asked? : Deed → Option Nat
  | ask max _ => some max
  | _ => none

theorem asked_calls (d : Deed) : asked d.calls = d.asked?.toList := by
  cases d with
  | reject h m letter answer => match letter with | none | some (.ok _) | some (.error _) => rfl
  | store parcels failures answer | giveUp parcels failures answer =>
    have hReading := batch_reading (f := Happening.asked?) (fun _ => rfl) (fun _ _ => rfl)
      (fun _ => rfl) parcels failures answer
    simp [asked, hReading, asked?, Happening.asked?]
  | _ => rfl

end Deed

open Deed

theorem Worker.Chronicle.asked_eq {φ ψ : Type} {settings : WorkerSettings} {w : Worker φ ψ}
    {journal : List Happening} {deeds : List Deed} (h : Chronicle settings w journal deeds) :
    asked journal = deeds.filterMap asked? :=
  h.filterMap_eq (fun _ => rfl) (fun _ => rfl) (fun _ _ => rfl) asked_calls

namespace Log

open Ledger

section Reading

theorem read_position (max : Nat) {l : Log} (h : l.position ≤ l.records.size) :
    (read max l).2.position = min (l.position + max) l.records.size ∧
    (read max l).2.position = l.position + (read max l).1.length := by
  induction max generalizing l with
  | zero => simp [read, h]
  | succ max ih =>
    rw [read]
    split
    · rename_i hNone
      have hSize := Array.getElem?_eq_none_iff.mp hNone
      simp only [List.length_nil]
      omega
    · rename_i record hRecord
      have hLess := (Array.getElem?_eq_some_iff.mp hRecord).1
      obtain ⟨hMost, hLength⟩ := ih (l := { l with
        position := l.position + 1
        reads := l.reads + 1
        ledger := (l.ledger.deliver 0 l.position (some record)).2 }) hLess
      simp only [List.length_cons] at hMost hLength ⊢
      omega

/-- What is queued takes its place in a fetch before new records do. -/
theorem fetch_position {l : Log} (h : l.Sound) (max : Nat) (wait : Duration) :
    (source.fetch l max wait).2.position
      = min (l.position + (max - (queuedOffsets l.ledger.pending).length)) l.records.size ∧
    ∀ time call, (source.fetch l max wait).1 = .waiting time call →
      (source.fetch l max wait).2.position = l.records.size := by
  have hAgain : (l.ledger.redeliver max).1.length
      = min max (queuedOffsets l.ledger.pending).length := length_handOutQueued max l.ledger.pending
  obtain ⟨hMost, hLength⟩ := read_position (max - (l.ledger.redeliver max).1.length)
    (l := { l with ledger := (l.ledger.redeliver max).2 }) h.position
  have hPosition := h.position
  simp only [source]
  by_cases hShort : ((l.ledger.redeliver max).1 ++ (read (max - (l.ledger.redeliver max).1.length)
      { l with ledger := (l.ledger.redeliver max).2 }).1).length < max
  · rw [if_pos hShort]
    rw [List.length_append] at hShort
    simp only at hMost hLength ⊢
    exact ⟨by omega, fun _ _ _ => by omega⟩
  · rw [if_neg hShort]
    simp only at hMost hLength ⊢
    exact ⟨by omega, fun _ _ hWaits => by cases hWaits⟩

end Reading

section Moves

variable {settings : WorkerSettings} {c c' : Custody Waiting} {s s' : Unit × Log} {new : List Deed}

theorem commit_position {γ : Type} (guard : Guard γ) {s : γ × Log} (h : s.2.Sound) :
    let r := (source.guarded guard).commit s
    r.2.2.position = s.2.position ∧ r.2.2.records = s.2.records := by
  obtain ⟨-, -, hRecords, hPosition, -⟩ := h.commit
  obtain ⟨-, hLog⟩ | ⟨e, -, hLog⟩ := guarded_commit guard s
  · exact ⟨by rw [hLog, hPosition], by rw [hLog, hRecords]⟩
  · exact ⟨by rw [hLog], by rw [hLog]⟩

/-- The position moves only when a fetch begins or goes on. -/
theorem move_reads (h : s.2.Sound)
    (hMove : Custody.Move (source.guarded Guard.free) settings c s new c' s') :
    (s'.2.position = s.2.position ∧ s'.2.records = s.2.records ∧ new.filterMap asked? = [] ∧
      ∀ call, c'.call = some call → c.call = some call) ∨
    (∃ max wait, c.call = none ∧ c.coming = [] ∧ c.leaving = false ∧
      max = settings.batchSize - c.held.length ∧ new.filterMap asked? = [max] ∧
      c' = c.fetched (source.fetch s.2 max wait).1 ∧ s'.2 = (source.fetch s.2 max wait).2) ∨
    ∃ call, c.call = some call ∧ c'.call = none ∧ new.filterMap asked? = [] ∧
      s'.2 = (source.resume s.2 call).2 := by
  have hDeeds : ∀ f : Fetch Waiting, f.deeds.filterMap asked? = [] := by
    intro f
    match f with
    | .answered (.ok _) | .answered (.error _) | .stalled | .waiting .. | .crashed => rfl
  cases hMove with
  | rest | accept => exact .inl ⟨rfl, rfl, rfl, fun _ hCall => hCall⟩
  | leave => exact .inl ⟨rfl, rfl, rfl, nofun⟩
  | fetch s max wait hCall hComing hMax _ hStays =>
    exact .inr (.inl ⟨max, wait, hCall, hComing, hStays, hMax,
      congrArg (max :: ·) (hDeeds _), rfl, rfl⟩)
  | resume s call hCall => exact .inr (.inr ⟨call, hCall, rfl, hDeeds _, rfl⟩)
  | reject s =>
    rename_i d rest handle m _ _ _
    have hReached := refuse_reached Guard.free settings.maxDeliver handle m s
    simp only at hReached
    exact .inl ⟨by rw [hReached]; rfl, by rw [hReached]; rfl, rfl, fun _ hCall => hCall⟩
  | commit s =>
    obtain ⟨hPosition, hRecords⟩ := commit_position Guard.free h
    exact .inl ⟨hPosition, hRecords, rfl, fun _ hCall => hCall⟩
  | store s hHeld =>
    rename_i batch kept failures _ _
    have hEach := each_ack Guard.free batch s
    obtain ⟨hPosition, hRecords⟩ := commit_position Guard.free
      (s := (Source.each (source.guarded Guard.free).ack batch s).2) (hEach ▸ h.settle _ _)
    rw [hEach] at hPosition hRecords
    exact .inl ⟨hPosition, hRecords, rfl, fun _ hCall => hCall⟩
  | giveUp s hHeld =>
    rename_i batch kept failures _ _
    have hEach := each_nak Guard.free batch s
    obtain ⟨hPosition, hRecords⟩ := commit_position Guard.free
      (s := (Source.each (source.guarded Guard.free).nak batch s).2) (hEach ▸ h.settle _ _)
    rw [hEach] at hPosition hRecords
    exact .inl ⟨hPosition, hRecords, rfl, fun _ hCall => hCall⟩

end Moves

/-- How many records below an offset hold no event. -/
def undecodableBelow (l : Log) (n : Nat) : Nat := (l.undecodable.filter (· < (n : Int))).length

section Below

variable {l : Log}

theorem undecodableBelow_eq {l' : Log} (h : l'.records = l.records) :
    l'.undecodableBelow = l.undecodableBelow := by
  funext n
  rw [undecodableBelow, undecodable_eq h, undecodableBelow]

theorem undecodableBelow_mono {n n' : Nat} (h : n ≤ n') :
    l.undecodableBelow n ≤ l.undecodableBelow n' := by
  refine (List.monotone_filter_right _ fun o ho => ?_).length_le
  simp only [decide_eq_true_eq] at ho ⊢
  omega

theorem undecodableBelow_add (n k : Nat) :
    l.undecodableBelow (n + k) ≤ l.undecodableBelow n + k := by
  have hSubset : l.undecodable.filter (· < ((n + k : Nat) : Int))
      ⊆ l.undecodable.filter (· < (n : Int)) ++ (List.range' n k).map Int.ofNat := by
    intro o ho
    obtain ⟨hIn, hLess⟩ := List.mem_filter.mp ho
    have hPos := (mem_offsets.mp (List.mem_filter.mp hIn).1).1
    simp only [decide_eq_true_eq] at hLess
    by_cases hBelow : o < n
    · exact List.mem_append_left _ (List.mem_filter.mpr ⟨hIn, by simpa using hBelow⟩)
    · refine List.mem_append_right _ (List.mem_map.mpr ⟨o.toNat, ?_, Int.toNat_of_nonneg hPos⟩)
      rw [List.mem_range'_1]
      omega
  have hLength := (List.subperm_of_subset (nodup_undecodable.filter _) hSubset).length_le
  simpa [undecodableBelow] using hLength

end Below

/-- What holds of a worker without a limit on hand-outs, over a log to which nothing is added. -/
structure Stalled (settings : WorkerSettings) (l : Log) (c : Custody Waiting) (deeds : List Deed) :
    Prop where
  followed : l.Followed settings c deeds
  covered : l.Covered (IsAcked deeds)
  calm : ∀ d ∈ deeds, d.IsCalm
  awaited : ∀ call, c.call = some call → l.position = l.records.size
  onlyUndecodable : (∀ d ∈ deeds, d.failedSize? = none) →
    ∀ o ∈ queuedOffsets l.ledger.pending, o ∈ l.undecodable
  bound : ∀ n, settings.batchSize ≤ l.undecodableBelow n → l.position ≤ n
  advance : (∀ d ∈ deeds, d.failedSize? = none) →
    l.undecodableBelow (l.records.size - 1) < settings.batchSize →
    min ((deeds.filterMap asked?).count settings.batchSize) l.records.size ≤ l.position

namespace Stalled

variable {settings : WorkerSettings} {l l' : Log} {c c' : Custody Waiting} {deeds new : List Deed}

theorem start (settings : WorkerSettings) (records : Array (List UInt8)) :
    Stalled settings { records } {} [] :=
  ⟨.start settings records, .start records, List.forall_mem_nil _, nofun,
    fun _ => List.forall_mem_nil _, fun _ _ => Nat.zero_le _, fun _ _ => Nat.min_le_left _ _⟩

/-- Whenever a fetch may begin, each record without an event that was read is queued. -/
theorem undecodable_queued (h : l.Stalled settings c deeds) (hNoLimit : settings.maxDeliver = 0)
    (hCall : c.call = none) (hComing : c.coming = []) (hStays : c.leaving = false) :
    l.undecodableBelow l.position ≤ (queuedOffsets l.ledger.pending).length := by
  have hInStep := h.followed.inStep
  refine (List.subperm_of_subset (nodup_undecodable.filter _) fun o ho => ?_).length_le
  obtain ⟨hIn, hLess⟩ := List.mem_filter.mp ho
  simp only [decide_eq_true_eq] at hLess
  obtain ⟨m, hm⟩ := mem_undecodable.mp hIn
  have hPos := (mem_offsets.mp (List.mem_filter.mp hIn).1).1
  have hRead := h.covered.read o.toNat (by omega)
  rw [Int.toNat_of_nonneg hPos] at hRead
  rcases hRead with hPending | hAcked
  · rw [pendingOffsets, ← (offsets_perm l.ledger.pending).mem_iff, List.mem_append] at hPending
    refine hPending.resolve_left fun hOpen => ?_
    -- An open record would be in the buffer, where only events are.
    have hHeld := hInStep.noneStuck (fun d hd => (h.calm d hd).isThrough) hStays o hOpen
    rw [Custody.offsets, hComing, Custody.collected, hCall] at hHeld
    simp only [Delivery.offsets_nil, Option.map_none, Option.getD_none, List.append_nil] at hHeld
    obtain ⟨p, hp, hOffset⟩ := List.mem_map.mp hHeld
    exact hm.not_parcel (hInStep.faithful.held p hp) hOffset
  · obtain ⟨p, hp, hOffset⟩ | ⟨handle, m', u, answer, hd, -⟩ := hAcked.cases
    · exact absurd hOffset
        (hm.not_parcel (hInStep.faithful.batches p (mem_allBatches_of_stored hp)))
    · have hSpent : true = Desk.isSpent settings.maxDeliver handle := h.followed.allows _ hd
      simp [Desk.isSpent, hNoLimit] at hSpent

theorem serves_onlyUndecodable (h : ∀ o ∈ queuedOffsets l.ledger.pending, o ∈ l.undecodable)
    (hSound : l.Sound) (hFaithful : c'.Faithful l.book (deeds ++ new))
    (hServes : l.Serves c new c' l') (hKept : ∀ d ∈ new, d.failedSize? = none) :
    ∀ o ∈ queuedOffsets l'.ledger.pending, o ∈ l.undecodable := by
  cases hServes with
  | rest => exact h
  | handOut _ hOut => exact fun o ho => h o (hOut.queued o ho)
  | @settle d _ _ hPartition _ _ hLog =>
    have hHere := List.mem_singleton_self d
    have hReached : ∀ o ∈ queuedOffsets (l.reached d).ledger.pending, o ∈ l.undecodable := by
      intro o ho
      rcases hSound.mem_queued_reached hPartition ho with hQueued | hReturned
      · exact h o hQueued
      · obtain ⟨handle, hHandle, rfl⟩ := List.mem_map.mp hReturned
        obtain ⟨m, hRefusal⟩ := refusal_of_returned (hKept d hHere) hHandle
        refine undecodable_of_malformed (hFaithful.refusals (handle, m) ?_)
        exact List.mem_filterMap.mpr ⟨d, List.mem_append_right _ hHere, hRefusal⟩
    obtain ⟨rfl, -⟩ | rfl := hLog
    · exact hReached
    · obtain ⟨-, -, -, -, -, hPending⟩ := (hSound.reached d).commit
      rw [hPending]
      exact hReached

/-- Of new records a fetch reads as many as what is queued leaves room for. -/
theorem fetch_reads (h : l.Stalled settings c deeds) (hNoLimit : settings.maxDeliver = 0)
    (hCall : c.call = none) (hComing : c.coming = []) (hStays : c.leaving = false) {max : Nat}
    (hMax : max = settings.batchSize - c.held.length) {position : Nat}
    (hPosition : position
      = min (l.position + (max - (queuedOffsets l.ledger.pending).length)) l.records.size) :
    (∀ n, settings.batchSize ≤ l.undecodableBelow n → position ≤ n) ∧
    ((∀ d ∈ deeds, d.failedSize? = none) →
      l.undecodableBelow (l.records.size - 1) < settings.batchSize → max = settings.batchSize →
      l.position < position ∨ position = l.records.size) := by
  have hQueued := h.undecodable_queued hNoLimit hCall hComing hStays
  constructor
  · intro n hn
    have hBound := h.bound n hn
    have hGrowth := undecodableBelow_add (l := l) l.position (n - l.position)
    rw [Nat.add_sub_cancel' hBound] at hGrowth
    omega
  · intro hKept hFew hAll
    have hSound := h.followed.inStep.sound
    -- What is queued are records without an event that were read.
    have hMost : (queuedOffsets l.ledger.pending).length ≤ l.undecodableBelow l.position := by
      refine (List.subperm_of_subset (List.nodup_append.mp hSound.nodup_append).2.1
        fun o ho => ?_).length_le
      obtain ⟨e, he, -, rfl⟩ := mem_queuedOffsets.mp ho
      refine List.mem_filter.mpr ⟨h.onlyUndecodable hKept _ ho, ?_⟩
      simpa using (hSound.entries e he).2.2.1
    by_cases hEnd : l.position < l.records.size
    · have hBefore := undecodableBelow_mono (l := l) (Nat.le_sub_one_of_lt hEnd)
      omega
    · omega

theorem move {s s' : Unit × Log} (h : s.2.Stalled settings c deeds)
    (hNoLimit : settings.maxDeliver = 0)
    (hMove : Custody.Move (source.guarded Guard.free) settings c s new c' s') :
    s'.2.Stalled settings c' (deeds ++ new) := by
  have hSound := h.followed.inStep.sound
  have hFaithful := h.followed.inStep.faithful
  have hServes := move_serves Guard.free hSound hFaithful hMove
  have hRecords := hServes.records hSound
  have hUndecodable := undecodable_eq hRecords
  have hBelow := undecodableBelow_eq hRecords
  suffices hReads : (∀ call, c'.call = some call → s'.2.position = s.2.records.size) ∧
      (∀ n, settings.batchSize ≤ s.2.undecodableBelow n → s'.2.position ≤ n) ∧
      ((∀ d ∈ deeds, d.failedSize? = none) →
        s.2.undecodableBelow (s.2.records.size - 1) < settings.batchSize →
        min (((deeds ++ new).filterMap asked?).count settings.batchSize) s.2.records.size
          ≤ s'.2.position) by
    obtain ⟨hAwaited, hBound, hAdvance⟩ := hReads
    refine ⟨h.followed.move hMove, ?_, ?_, hRecords ▸ hAwaited, ?_, hBelow ▸ hBound, ?_⟩
    · refine (h.covered.mono fun o ho => ho.append new).serves hServes hSound ?_
      exact fun d hd handle hh => ⟨d, List.mem_append_right _ hd, handle, hh, rfl⟩
    · exact List.forall_mem_append.mpr ⟨h.calm, hMove.calm obliging⟩
    · intro hKept
      obtain ⟨hBefore, hNew⟩ := List.forall_mem_append.mp hKept
      rw [hUndecodable]
      exact serves_onlyUndecodable (h.onlyUndecodable hBefore) hSound
        (move_faithful Guard.free hSound hFaithful hMove) hServes hNew
    · intro hKept
      rw [hBelow, hRecords]
      exact hAdvance (List.forall_mem_append.mp hKept).1
  rw [List.filterMap_append, List.count_append]
  obtain ⟨hPosition, -, hAsked, hCalls⟩ |
    ⟨max, wait, hCall, hComing, hStays, hMax, hAsked, rfl, hLog⟩ |
    ⟨call, hCall, hNone, hAsked, hLog⟩ := move_reads hSound hMove
  · rw [hPosition, hAsked]
    exact ⟨fun call hCall => h.awaited call (hCalls call hCall), h.bound, h.advance⟩
  · obtain ⟨hPosition, hWaits⟩ := fetch_position hSound max wait
    rw [hLog, hAsked]
    obtain ⟨hBound, hAdvance⟩ := h.fetch_reads hNoLimit hCall hComing hStays hMax hPosition
    refine ⟨fun call hWaiting => ?_, hBound, fun hKept hFew => ?_⟩
    · match hAnswer : (source.fetch s.2 max wait).1 with
      | .waiting time call' => exact hWaits time call' hAnswer
      | .answered (.ok _) | .answered (.error _) | .stalled | .crashed =>
        rw [hAnswer] at hWaiting
        cases hWaiting
    · have hBefore := h.advance hKept hFew
      have hFull := hAdvance hKept hFew
      rw [List.count_singleton]
      split
      · rename_i hSame
        have hMore := hFull (beq_iff_eq.mp hSame)
        omega
      · omega
  · have hEnd := h.awaited call hCall
    have hPosition : s'.2.position = s.2.position := by
      obtain ⟨hMost, -⟩ := read_position (call.max - call.collected.length) hSound.position
      rw [hLog]
      refine hMost.trans ?_
      omega
    rw [hPosition, hAsked, hNone]
    exact ⟨nofun, h.bound, h.advance⟩

end Stalled

section Courses

open Worker Course

/-- A worker for which no call fails that settles messages, over a log to which nothing is added. -/
def alone {τ ψ : Type} (settings : WorkerSettings) (store : Store τ ψ) (t : τ)
    (records : Array (List UInt8)) (turns : List (Turn Empty τ)) :
    Course (Unit × Log) τ Waiting ψ :=
  run ⟨settings, source.guarded Guard.free, store⟩ (fun a : Empty => a.elim) turns
    (start settings ((), { records }) t)

theorem alone_stalled {τ ψ : Type} (settings : WorkerSettings)
    (hNoLimit : settings.maxDeliver = 0) (store : Store τ ψ) (t : τ)
    (records : Array (List UInt8)) (turns : List (Turn Empty τ)) :
    let c := alone settings store t records turns
    ∃ deeds, Chronicle settings c.scene.worker c.journal deeds ∧
      c.scene.source.2.Stalled settings c.scene.worker.custody deeds ∧
      c.scene.source.2.records = records := by
  refine run_from_start (I := fun c (s : Unit × Log) deeds =>
    s.2.Stalled settings c deeds ∧ s.2.records = records) ?_ nofun
    ⟨.start settings records, rfl⟩ turns
  intro c s deeds new c' s' h hMove
  have hInStep := h.1.followed.inStep
  have hServes := move_serves Guard.free hInStep.sound hInStep.faithful hMove
  exact ⟨h.1.move hNoLimit hMove, (hServes.records hInStep.sound).trans h.2⟩

/-- A worker without a limit on hand-outs reads no record that comes after as many records without
an event as a batch may hold. If they are fewer before the last record and no insert fails, then all
is read once there were as many fetches of a whole batch as there are records. -/
theorem neighbours_wait_behind_whole_batch {τ ψ : Type} (settings : WorkerSettings)
    (hNoLimit : settings.maxDeliver = 0) (store : Store τ ψ) (t : τ)
    (records : Array (List UInt8)) (turns : List (Turn Empty τ)) :
    let c := alone settings store t records turns
    let l := c.scene.source.2
    l.records = records ∧
    (∀ n, settings.batchSize ≤ l.undecodableBelow n → l.position ≤ n) ∧
    (l.undecodableBelow (l.records.size - 1) < settings.batchSize →
      (∀ call ∈ c.journal, call.isFailedInsert = false) →
      l.records.size ≤ (asked c.journal).count settings.batchSize →
      l.position = l.records.size) := by
  intro c l
  obtain ⟨deeds, hChronicle, hStalled, hRecords⟩ : ∃ deeds,
      Chronicle settings c.scene.worker c.journal deeds ∧
        l.Stalled settings c.scene.worker.custody deeds ∧ l.records = records :=
    alone_stalled settings hNoLimit store t records turns
  refine ⟨hRecords, hStalled.bound, fun hFew hStores hFetches => ?_⟩
  have hKept : ∀ d ∈ deeds, d.failedSize? = none := fun d hd =>
    kept_of_stored (hStalled.followed.allows d hd) fun call hCall =>
      hStores call (hChronicle.mem_journal hd hCall)
  have hAdvance := hStalled.advance hKept hFew
  have hPosition := hStalled.followed.inStep.sound.position
  rw [hChronicle.asked_eq] at hFetches
  omega

/-- Bytes that hold no event, and an event after them. -/
def badThenGood : Array (List UInt8) := #[[120], [123, 125]]

def withRoomFor (n : Nat) (turns : List (Turn Empty PlannedStore)) :
    Course (Unit × Log) PlannedStore Waiting (Option StoreError) :=
  alone { batchSize := n, maxDeliver := 0 } PlannedStore.store {} badThenGood turns

/-- The buffer is written when its time has come. -/
def untilWritten : List (Turn Empty PlannedStore) :=
  List.replicate 6 (.work 0) ++ List.replicate 5 (.work (.ofSeconds 5))

theorem below_badThenGood {l : Log} (h : l.records = badThenGood) :
    l.undecodableBelow 1 = 1 ∧ l.records.size = 2 := by
  have hOne : ({ records := badThenGood } : Log).undecodableBelow 1 = 1 := by decide +kernel
  rw [undecodableBelow_eq (l := { records := badThenGood }) h, h]
  exact ⟨hOne, rfl⟩

theorem good_read_with_room_for_two :
    asked (withRoomFor 2 untilWritten).journal = [2, 1, 2] ∧
    (withRoomFor 2 untilWritten).scene.source.2.position = 2 ∧
    (withRoomFor 1 untilWritten).scene.source.2.position ≤ 1 := by
  have hAsked : asked (withRoomFor 2 untilWritten).journal = [2, 1, 2] := by decide +kernel
  have hStores : ∀ call ∈ (withRoomFor 2 untilWritten).journal, call.isFailedInsert = false := by
    decide +kernel
  obtain ⟨hRecords, -, hAll⟩ := neighbours_wait_behind_whole_batch
    { batchSize := 2, maxDeliver := 0 } rfl PlannedStore.store {} badThenGood untilWritten
  obtain ⟨hSame, hBound, -⟩ := neighbours_wait_behind_whole_batch
    { batchSize := 1, maxDeliver := 0 } rfl PlannedStore.store {} badThenGood untilWritten
  obtain ⟨hBelow, hSize⟩ := below_badThenGood hRecords
  refine ⟨hAsked, ?_, hBound 1 (Nat.le_of_eq (below_badThenGood hSame).1.symm)⟩
  rw [hSize, hBelow] at hAll
  refine hAll (by decide) hStores (Nat.le_of_eq ?_)
  exact (congrArg (List.count 2) hAsked).symm

/-- With room for one, the event is never read, however often the worker fetches. -/
theorem good_never_read_with_room_for_one :
    ¬ ∃ turns, (withRoomFor 1 turns).scene.source.2.position = badThenGood.size := by
  rintro ⟨turns, hRead⟩
  obtain ⟨deeds, -, hStalled, hRecords⟩ := alone_stalled
    { batchSize := 1, maxDeliver := 0 } rfl PlannedStore.store {} badThenGood turns
  have hBelow := (below_badThenGood hRecords).1
  have hBound : (withRoomFor 1 turns).scene.source.2.position ≤ 1 :=
    hStalled.bound 1 (Nat.le_of_eq hBelow.symm)
  rw [hRead] at hBound
  exact Nat.not_succ_le_self 1 hBound

end Courses

end Log

end EventIngest
