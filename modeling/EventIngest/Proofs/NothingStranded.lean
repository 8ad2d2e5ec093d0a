import EventIngest.Proofs.Course
import EventIngest.Proofs.LogMoves
import EventIngest.Store.Planned
/-!
# No message of a log is stranded

A worker and the ledger of its log stay in step: what the worker has is pending and not queued, and
as long as its settlements go through nothing else is. Without a restart a record is read once, and
its event is in one stored batch at most, whatever settlements fail.
-/
namespace EventIngest

open Deed

theorem Deed.storedBatches_idle {deeds : List Deed} (h : ∀ d ∈ deeds, d.IsIdle) :
    storedBatches deeds = [] :=
  List.filterMap_eq_nil_iff.mpr fun d hd => (h d hd).2.2

/-- What a deed adds to the offsets of the stored batches: nothing, or all that it settles. -/
theorem Deed.stored_offsets (d : Deed) (deeds : List Deed) :
    ∃ stored, Batch.offsets (storedBatches (deeds ++ [d])).flatten
        = Batch.offsets (storedBatches deeds).flatten ++ stored ∧
      (stored = [] ∨ stored = d.handles.map (·.offset) ∧ d.returned = []) := by
  rw [storedBatches_append, storedBatches_singleton, List.flatten_append, Batch.offsets_append]
  refine ⟨_, rfl, ?_⟩
  cases d with
  | store parcels failures answer =>
    right
    simp [storedBatch?, Deed.handles, batch, refusal?, Batch.offsets, Batch.handles, returned]
  | _ => exact .inl rfl

namespace Log

open Ledger

/-- A log without restarts and a worker over it. -/
structure InStep (l : Log) (c : Custody Waiting) (deeds : List Deed) : Prop where
  sound : l.Sound
  faithful : c.Faithful l.book deeds
  reads : l.reads = l.position
  nodup : c.offsets.Nodup
  opened : ∀ o ∈ c.offsets, o ∈ openOffsets l.ledger.pending
  noneStuck : (∀ d ∈ deeds, d.IsThrough) → c.leaving = false →
    ∀ o ∈ openOffsets l.ledger.pending, o ∈ c.offsets
  storedOnce : (Batch.offsets (storedBatches deeds).flatten).Nodup
  storedGone : ∀ o ∈ Batch.offsets (storedBatches deeds).flatten,
    o < l.position ∧ o ∉ c.offsets ∧ o ∉ queuedOffsets l.ledger.pending

namespace InStep

variable {l l' : Log} {c c' : Custody Waiting} {deeds new : List Deed}

theorem start (records : Array (List UInt8)) : InStep { records } {} [] :=
  ⟨.start records, .start _, rfl, .nil, List.forall_mem_nil _, fun _ _ => List.forall_mem_nil _,
    .nil, List.forall_mem_nil _⟩

theorem append (h : InStep l c deeds) (record : List UInt8) :
    InStep (l.append record) c deeds :=
  ⟨h.sound.append record, h.faithful.mono (l.book_append record), h.reads, h.nodup, h.opened,
    h.noneStuck, h.storedOnce, h.storedGone⟩

theorem rest (h : InStep l c deeds) (hFaithful : c'.Faithful l.book (deeds ++ new))
    (hIdle : ∀ d ∈ new, d.IsIdle) (hOffsets : c'.offsets.Sublist c.offsets)
    (hSame : c'.leaving = false → c.leaving = false ∧ c'.offsets = c.offsets) :
    InStep l c' (deeds ++ new) := by
  have hStored : storedBatches (deeds ++ new) = storedBatches deeds := by
    rw [storedBatches_append, storedBatches_idle hIdle, List.append_nil]
  refine ⟨h.sound, hFaithful, h.reads, h.nodup.sublist hOffsets,
    fun o ho => h.opened o (hOffsets.subset ho), ?_, ?_, ?_⟩
  · intro hThrough hLeaving o ho
    obtain ⟨hStays, hEq⟩ := hSame hLeaving
    rw [hEq]
    exact h.noneStuck (List.forall_mem_append.mp hThrough).1 hStays o ho
  · rw [hStored]
    exact h.storedOnce
  · rw [hStored]
    intro o ho
    obtain ⟨hLess, hHeld, hQueued⟩ := h.storedGone o ho
    exact ⟨hLess, fun hMem => hHeld (hOffsets.subset hMem), hQueued⟩

theorem handOut (h : InStep l c deeds) (hFaithful : c'.Faithful l.book (deeds ++ new))
    (hIdle : ∀ d ∈ new, d.IsIdle) {ds : List Delivery} (hOut : l.HandsOut ds l')
    (hOffsets : c'.offsets = c.offsets ++ Delivery.offsets ds)
    (hLeaving : c'.leaving = c.leaving) : InStep l' c' (deeds ++ new) := by
  have hStored : storedBatches (deeds ++ new) = storedBatches deeds := by
    rw [storedBatches_append, storedBatches_idle hIdle, List.append_nil]
  have hBook : l'.book = l.book := book_eq hOut.records
  have hReads := hOut.reads
  have hPosition := hOut.position
  -- What is handed out was queued or is read for the first time, so it was not open before.
  have hOpenNodup : (openOffsets l.ledger.pending ++ Delivery.offsets ds).Nodup :=
    hOut.opened.nodup_iff.mp (List.nodup_append.mp hOut.sound.nodup_append).1
  obtain ⟨-, hFresh, hApart⟩ := List.nodup_append.mp hOpenNodup
  refine ⟨hOut.sound, hBook ▸ hFaithful, by have := h.reads; omega, ?_, ?_, ?_, ?_, ?_⟩
  · rw [hOffsets]
    exact List.nodup_append.mpr ⟨h.nodup, hFresh, fun a ha b hb => hApart a (h.opened a ha) b hb⟩
  · intro o ho
    rw [hOffsets, List.mem_append] at ho
    rw [hOut.opened.mem_iff, List.mem_append]
    exact ho.imp_left (h.opened o)
  · intro hThrough hStays o ho
    rw [hOut.opened.mem_iff, List.mem_append] at ho
    rw [hOffsets, List.mem_append]
    exact ho.imp_left
      (h.noneStuck (List.forall_mem_append.mp hThrough).1 (hLeaving ▸ hStays) o)
  · rw [hStored]
    exact h.storedOnce
  · rw [hStored]
    intro o ho
    obtain ⟨hLess, hHeld, hQueued⟩ := h.storedGone o ho
    refine ⟨by omega, ?_, fun hMem => hQueued (hOut.queued o hMem)⟩
    rw [hOffsets, List.mem_append]
    rintro (hMem | hMem)
    · exact hHeld hMem
    · rcases hOut.origin o hMem with hMem | hMem
      · exact hQueued hMem
      · omega

section Reached

variable {d : Deed} (h : InStep l c deeds)
  (hOffsets : c.offsets.Perm (d.handles.map (·.offset) ++ c'.offsets))

include hOffsets

theorem mem_offsets_or {o : Int} (ho : o ∈ d.handles.map (·.offset) ∨ o ∈ c'.offsets) :
    o ∈ c.offsets := by
  rw [hOffsets.mem_iff, List.mem_append]
  exact ho

include h

theorem reached_storedOnce : (Batch.offsets (storedBatches (deeds ++ [d])).flatten).Nodup := by
  have hSettled : (d.handles.map (·.offset)).Nodup :=
    (List.nodup_append.mp (hOffsets.nodup_iff.mp h.nodup)).1
  obtain ⟨stored, hAll, hStored⟩ := d.stored_offsets deeds
  rw [hAll]
  rcases hStored with rfl | ⟨rfl, -⟩
  · rw [List.append_nil]
    exact h.storedOnce
  · refine List.nodup_append.mpr ⟨h.storedOnce, hSettled, ?_⟩
    intro o ho o' hIn hEq
    subst hEq
    exact (h.storedGone o ho).2.1 (mem_offsets_or hOffsets (.inl hIn))

theorem reached_storedGone (hPartition : ∀ handle ∈ d.handles, handle.partition = 0) :
    ∀ o ∈ Batch.offsets (storedBatches (deeds ++ [d])).flatten,
      o < l.position ∧ o ∉ c'.offsets ∧ o ∉ queuedOffsets (l.reached d).ledger.pending := by
  obtain ⟨-, -, hApart⟩ := List.nodup_append.mp (hOffsets.nodup_iff.mp h.nodup)
  obtain ⟨stored, hAll, hStored⟩ := d.stored_offsets deeds
  rw [hAll]
  intro o ho
  rcases List.mem_append.mp ho with ho | ho
  · obtain ⟨hLess, hHeld, hQueued⟩ := h.storedGone o ho
    refine ⟨hLess, fun hIn => hHeld (mem_offsets_or hOffsets (.inr hIn)), fun hIn => ?_⟩
    rcases h.sound.mem_queued_reached hPartition hIn with hIn | hIn
    · exact hQueued hIn
    · exact hHeld (mem_offsets_or hOffsets (.inl (List.map_subset _ d.returned_subset hIn)))
  · rcases hStored with rfl | ⟨rfl, hNone⟩
    · exact absurd ho List.not_mem_nil
    · have hOpen := h.opened o (mem_offsets_or hOffsets (.inl ho))
      obtain ⟨e, he, -, rfl⟩ := mem_openOffsets.mp hOpen
      refine ⟨(h.sound.entries e he).2.2.1, fun hIn => hApart _ ho _ hIn rfl, fun hIn => ?_⟩
      rcases h.sound.mem_queued_reached hPartition hIn with hIn | hIn
      · exact (List.nodup_append.mp h.sound.nodup_append).2.2 _ hOpen _ hIn rfl
      · -- A deed that stores a batch returns nothing.
        rw [hNone] at hIn
        exact absurd hIn List.not_mem_nil

theorem reached (hFaithful : c'.Faithful l.book (deeds ++ [d]))
    (hPartition : ∀ handle ∈ d.handles, handle.partition = 0) (hLeaving : c'.leaving = c.leaving) :
    InStep (l.reached d) c' (deeds ++ [d]) := by
  obtain ⟨-, hNodup, hApart⟩ := List.nodup_append.mp (hOffsets.nodup_iff.mp h.nodup)
  refine ⟨h.sound.reached d, hFaithful, h.reads, hNodup, ?_, ?_,
    reached_storedOnce h hOffsets, reached_storedGone h hOffsets hPartition⟩
  · intro o ho
    refine (h.sound.mem_open_reached hPartition).mpr ⟨⟨?_, ?_⟩, ?_⟩
    · exact h.opened o (mem_offsets_or hOffsets (.inr ho))
    · exact fun hIn => hApart o (List.map_subset _ d.acked_subset hIn) o ho rfl
    · exact fun hIn => hApart o (List.map_subset _ d.returned_subset hIn) o ho rfl
  · intro hThrough hStays o ho
    obtain ⟨⟨hOpen, hNotAcked⟩, hNotReturned⟩ :=
      (h.sound.mem_open_reached hPartition).mp ho
    obtain ⟨hBefore, hNew⟩ := List.forall_mem_append.mp hThrough
    have hAll : d.acked ++ d.returned = d.handles := hNew d (List.mem_singleton_self d)
    have hHeld := h.noneStuck hBefore (hLeaving ▸ hStays) o hOpen
    rw [hOffsets.mem_iff, List.mem_append] at hHeld
    refine hHeld.resolve_left ?_
    rw [← hAll, List.map_append, List.mem_append]
    exact not_or.mpr ⟨hNotAcked, hNotReturned⟩

end Reached

theorem commit (h : InStep l c deeds) : InStep (source.commit l).2 c deeds := by
  obtain ⟨hSound, -, hRecords, hPosition, hReads, hPending⟩ := h.sound.commit
  have hBook : (source.commit l).2.book = l.book := book_eq hRecords
  refine ⟨hSound, hBook ▸ h.faithful, by rw [hReads, hPosition, h.reads], h.nodup, ?_, ?_,
    h.storedOnce, ?_⟩
  · rw [hPending]
    exact h.opened
  · rw [hPending]
    exact h.noneStuck
  · rw [hPending, hPosition]
    exact h.storedGone

theorem move {γ : Type} {guard : Guard γ} {settings : WorkerSettings} {s s' : γ × Log}
    (h : InStep s.2 c deeds)
    (hMove : Custody.Move (source.guarded guard) settings c s new c' s') :
    InStep s'.2 c' (deeds ++ new) := by
  have hFaithful := move_faithful guard h.sound h.faithful hMove
  have hServes := move_serves guard h.sound h.faithful hMove
  generalize s'.2 = l' at hServes ⊢
  cases hServes with
  | rest hIdle hOffsets hSame =>
    exact h.rest hFaithful hIdle hOffsets fun hStays => ⟨(hSame hStays).1, (hSame hStays).2.1⟩
  | handOut hIdle hOut hOffsets hLeaving => exact h.handOut hFaithful hIdle hOut hOffsets hLeaving
  | settle hPartition hOffsets hLeaving hLog =>
    have hReached := h.reached hOffsets hFaithful hPartition hLeaving
    rcases hLog with ⟨hLog, -⟩ | hLog
    · rw [hLog]
      exact hReached
    · rw [hLog]
      exact hReached.commit

/-- The offsets of a worker that has let nothing go are all that is pending and not queued. -/
theorem open_perm (h : InStep l c deeds) (hThrough : ∀ d ∈ deeds, d.IsThrough)
    (hLeaving : c.leaving = false) :
    (openOffsets l.ledger.pending).Perm c.offsets := by
  have hOpen : (openOffsets l.ledger.pending).Nodup := (List.nodup_append.mp h.sound.nodup_append).1
  refine (List.perm_ext_iff_of_nodup hOpen h.nodup).mpr fun o => ?_
  exact ⟨h.noneStuck hThrough hLeaving o, h.opened o⟩

end InStep

/-- All that is pending is in a buffer or queued, and nothing twice. -/
structure SharedOut (l : Log) (buffer : Batch) : Prop where
  pending : l.pendingOffsets.Perm (buffer.offsets ++ queuedOffsets l.ledger.pending)
  apart : (buffer.offsets ++ queuedOffsets l.ledger.pending).Nodup

theorem InStep.sharedOut {l : Log} {c : Custody Waiting} {deeds : List Deed} {buffer : Batch}
    (h : InStep l c deeds) (hThrough : ∀ d ∈ deeds, d.IsThrough) (hLeaving : c.leaving = false)
    (hOffsets : c.offsets = buffer.offsets) : l.SharedOut buffer := by
  have hOpen := hOffsets ▸ h.open_perm hThrough hLeaving
  have hPending : (buffer.offsets ++ queuedOffsets l.ledger.pending).Perm l.pendingOffsets :=
    (hOpen.symm.append_right _).trans (offsets_perm l.ledger.pending)
  exact ⟨hPending.symm, hPending.nodup_iff.mpr h.sound.nodup⟩

/-- Batches that were stored: each event is one of a record, and no two are of the same record. -/
structure StoredApart (l : Log) (batches : List Batch) : Prop where
  isFrom : ∀ b ∈ batches, ∀ p ∈ b, p.IsFrom l.book
  once : (Batch.offsets batches.flatten).Nodup

theorem InStep.storedApart {l : Log} {c : Custody Waiting} {deeds : List Deed}
    (h : InStep l c deeds) : l.StoredApart (storedBatches deeds) := by
  refine ⟨fun b hb p hp => ?_, h.storedOnce⟩
  exact h.faithful.batches p (mem_allBatches_of_stored (List.mem_flatten.mpr ⟨b, hb, hp⟩))

section Courses

open Worker Course

variable {γ τ ψ : Type}

/-- In every course of a worker over a log, records are read once and in order, and the event of a
record is in one stored batch at most. If no acknowledgement and no return has failed, then whenever
the worker is about to fetch, what is pending is in its buffer or queued, and all else that was read
is acknowledged. -/
theorem no_message_stranded (guard : Guard γ) (g : γ) (settings : WorkerSettings)
    (store : Store τ ψ) (t : τ) (records : Array (List UInt8))
    (turns : List (Turn (List UInt8) τ)) :
    let c := run ⟨settings, source.guarded guard, store⟩ (behind append) turns
      (start settings (g, { records }) t)
    let l := c.scene.source.2
    (Journal.NoneFailed c.journal → c.scene.worker.phase = .polling →
      l.SharedOut c.scene.worker.buffer.batch ∧
      ∀ o : Nat, o < l.position → (o : Int) ∉ l.pendingOffsets →
        ∃ handle : Handle, handle.partition = 0 ∧ handle.offset = o ∧
          .ack handle (.ok ()) ∈ c.journal) ∧
    l.reads = l.position ∧
    ∃ batches : List Batch,
      Journal.stored c.journal = batches.map Batch.rows ∧ l.StoredApart batches := by
  intro c l
  obtain ⟨deeds, hChronicle, hInStep, hCovered⟩ : ∃ deeds,
      Chronicle settings c.scene.worker c.journal deeds ∧
        InStep l c.scene.worker.custody deeds ∧ l.Covered (IsAcked deeds) := by
    refine run_from_start (I := fun c (s : γ × Log) deeds =>
      InStep s.2 c deeds ∧ s.2.Covered (IsAcked deeds)) ?_ ?_ ⟨.start records, .start records⟩ turns
    · intro c s deeds new c' s' h hMove
      refine ⟨h.1.move hMove, ?_⟩
      have hServes := move_serves guard h.1.sound h.1.faithful hMove
      refine (h.2.mono fun o ho => ho.append new).serves hServes h.1.sound ?_
      exact fun d hd handle hh => ⟨d, List.mem_append_right _ hd, handle, hh, rfl⟩
    · exact fun record h => ⟨h.1.append record, h.2.append record⟩
  refine ⟨?_, hInStep.reads, _, hChronicle.stored_eq, hInStep.storedApart⟩
  intro hNone hPolling
  constructor
  · refine hInStep.sharedOut (hChronicle.isThrough hNone) ?_ ?_
    · simp [custody, hPolling]
    · simp [custody, hPolling, Custody.offsets, Custody.collected]
  · intro o ho hSettled
    obtain ⟨d, hd, handle, hHandle, hOffset⟩ := (hCovered.read o ho).resolve_left hSettled
    refine ⟨handle, ?_, hOffset, hChronicle.mem_journal hd (ack_mem_calls hHandle)⟩
    exact partition_of_faithful hInStep.faithful hd handle (d.acked_subset hHandle)

/-- Two events, bytes that hold none and an event, after ten moves of a worker with room for two. -/
def fourRecords : Course (Unit × Log) PlannedStore Waiting (Option StoreError) :=
  run ⟨{ batchSize := 2 }, source.guarded Guard.free, PlannedStore.store⟩ (behind append)
    (List.replicate 10 (.work 0))
    (start { batchSize := 2 } ((), { records := #[[123, 125], [123, 125], [120], [123, 125]] }) {})

theorem four_records_shared_out :
    Journal.NoneFailed fourRecords.journal ∧ fourRecords.scene.worker.phase = .polling ∧
    fourRecords.scene.source.2.pendingOffsets = [2, 3] ∧
    fourRecords.scene.source.2.SharedOut fourRecords.scene.worker.buffer.batch ∧
    ∃ handle : Handle, handle.partition = 0 ∧ handle.offset = 1 ∧
      .ack handle (.ok ()) ∈ fourRecords.journal := by
  have hNone : Journal.NoneFailed fourRecords.journal := by decide +kernel
  have hPolling : fourRecords.scene.worker.phase = .polling := by rfl
  have hPending : fourRecords.scene.source.2.pendingOffsets = [2, 3] := by rfl
  have hPosition : fourRecords.scene.source.2.position = 4 := by rfl
  obtain ⟨hShared, hAcked⟩ := (no_message_stranded Guard.free () { batchSize := 2 }
    PlannedStore.store {} #[[123, 125], [123, 125], [120], [123, 125]]
    (List.replicate 10 (.work 0))).1 hNone hPolling
  refine ⟨hNone, hPolling, hPending, hShared, hAcked 1 ?_ ?_⟩
  · exact hPosition ▸ (by decide : 1 < 4)
  · exact hPending ▸ (by decide : (1 : Int) ∉ [2, 3])

end Courses

end Log

end EventIngest
