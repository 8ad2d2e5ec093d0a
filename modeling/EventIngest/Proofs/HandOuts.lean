import EventIngest.Proofs.NothingStranded
/-!
# Hand-outs in a row

Without a restart the hand-outs of a record are counted from one, whatever settlements fail: each
delivery bears the next number, and the ledger knows the number of the last one.
-/
namespace EventIngest

theorem Delivery.length_handlesAt (o : Int) (ds : List Delivery) :
    (handlesAt o ds).length = (offsets ds).count o := by
  induction ds with
  | nil => rfl
  | cons d ds ih =>
    simp only [handlesAt, offsets, List.map_cons, List.filter_cons, List.count_cons] at ih ⊢
    split
    · rw [List.length_cons, ih]
    · exact ih

namespace Log

open Deed Ledger

namespace HandsOut

variable {l l' : Log} {ds : List Delivery} (h : l.HandsOut ds l')
include h

theorem nodup : (openOffsets l.ledger.pending ++ Delivery.offsets ds).Nodup :=
  h.opened.nodup_iff.mp (List.nodup_append.mp h.sound.nodup_append).1

theorem mem_open {o : Int} (ho : o ∈ Delivery.offsets ds) :
    o ∈ openOffsets l'.ledger.pending :=
  h.opened.mem_iff.mpr (List.mem_append_right _ ho)

theorem mem_pending {o : Int} (ho : o ∈ Delivery.offsets ds) : o ∈ l'.pendingOffsets := by
  obtain ⟨e, he, -, hOffset⟩ := mem_openOffsets.mp (h.mem_open ho)
  exact List.mem_map.mpr ⟨e, he, hOffset⟩

theorem not_mem_of_open {o : Int} (ho : o ∈ openOffsets l.ledger.pending) :
    o ∉ Delivery.offsets ds :=
  fun hIn => (List.nodup_append.mp h.nodup).2.2 o ho o hIn rfl

theorem not_mem_of_queued {o : Int} (ho : o ∈ queuedOffsets l'.ledger.pending) :
    o ∉ Delivery.offsets ds :=
  fun hIn => (List.nodup_append.mp h.sound.nodup_append).2.2 o (h.mem_open hIn) o ho rfl

theorem times_other {o : Int} (ho : o ∉ Delivery.offsets ds) : l'.times o = l.times o := by
  obtain ⟨k, hTimes, hHandles⟩ := h.times o
  rw [Delivery.handlesAt_eq_nil.mpr ho] at hHandles
  have hLength := congrArg List.length hHandles
  rw [length_handOuts, List.length_nil] at hLength
  rw [hTimes, ← hLength, Nat.add_zero]

theorem times_handed {o : Int} (ho : o ∈ Delivery.offsets ds) :
    l'.times o = l.times o + 1 ∧ Delivery.handlesAt o ds = [⟨0, o, l.times o + 1⟩] := by
  obtain ⟨k, hTimes, hHandles⟩ := h.times o
  have hNodup : (Delivery.offsets ds).Nodup := (List.nodup_append.mp h.nodup).2.1
  have hOnce : k = 1 := by
    have hLength := congrArg List.length hHandles
    rw [Delivery.length_handlesAt, hNodup.count, if_pos ho, length_handOuts] at hLength
    exact hLength.symm
  subst hOnce
  exact ⟨hTimes, hHandles⟩

theorem count_eq_times {d : Delivery} (hd : d ∈ ds) :
    d.handle.deliveryCount = l'.times d.handle.offset := by
  have hOffset : d.handle.offset ∈ Delivery.offsets ds := List.mem_map_of_mem hd
  obtain ⟨hTimes, hHandles⟩ := h.times_handed hOffset
  have hHere : d.handle ∈ Delivery.handlesAt d.handle.offset ds :=
    Delivery.mem_handlesAt.mpr ⟨⟨d, hd, rfl⟩, rfl⟩
  rw [hHandles, List.mem_singleton] at hHere
  rw [hTimes, hHere]

end HandsOut

theorem times_reached {l : Log} {d : Deed}
    (hPartition : ∀ handle ∈ d.handles, handle.partition = 0) {o : Int}
    (ho : o ∉ d.acked.map (·.offset)) : (l.reached d).times o = l.times o :=
  times_settle (fun handle hh => hPartition handle (d.acked_subset hh)) ho

theorem Sound.times_commit {l : Log} (h : l.Sound) : (source.commit l).2.times = l.times := by
  obtain ⟨-, -, -, -, -, hPending⟩ := h.commit
  funext o
  rw [times, hPending, times]

/-- The hand-outs of each record are numbered in a row, as long as the worker stays up to the number
that the ledger knows, and what the worker has not looked at was handed out last. -/
structure Counts (l : Log) (c : Custody Waiting) (deeds : List Deed) : Prop where
  inRow : ∀ o, ∃ n, Delivery.handlesAt o (c.given deeds) = handOuts o 1 n
  isFrom : ∀ d ∈ c.given deeds, d.IsFrom l.book
  read : ∀ d ∈ c.given deeds, d.handle.offset < l.position
  current : c.leaving = false → ∀ o ∈ l.pendingOffsets,
    Delivery.handlesAt o (c.given deeds) = handOuts o 1 (l.times o)
  last : ∀ d ∈ c.inHand, d.handle.deliveryCount = l.times d.handle.offset

theorem handOuts_of_prefix {hs : List Handle} {o : Int} {n : Nat} (h : hs <+: handOuts o 1 n) :
    hs = handOuts o 1 hs.length := by
  obtain ⟨k, rfl⟩ : ∃ k, n = hs.length + k := by
    have hLength := h.length_le
    rw [length_handOuts] at hLength
    exact Nat.exists_eq_add_of_le hLength
  have hHere : handOuts o 1 hs.length <+: handOuts o 1 (hs.length + k) := by
    rw [← handOuts_append]
    exact List.prefix_append _ _
  have hPrefix : hs <+: handOuts o 1 hs.length :=
    List.prefix_of_prefix_length_le h hHere (Nat.le_of_eq (length_handOuts ..).symm)
  exact hPrefix.eq_of_length (length_handOuts ..).symm

theorem handlesAt_prefix {o : Int} {a b : List Delivery} (h : a <+: b) :
    Delivery.handlesAt o a <+: Delivery.handlesAt o b := by
  obtain ⟨rest, rfl⟩ := h
  rw [Delivery.handlesAt_append]
  exact List.prefix_append _ _

namespace Counts

variable {l l' : Log} {c c' : Custody Waiting} {deeds new : List Deed}

theorem start (records : Array (List UInt8)) : Counts { records } {} [] :=
  ⟨fun _ => ⟨0, rfl⟩, List.forall_mem_nil _, List.forall_mem_nil _, fun _ => List.forall_mem_nil _,
    List.forall_mem_nil _⟩

theorem append (h : l.Counts c deeds) (record : List UInt8) : (l.append record).Counts c deeds :=
  ⟨h.inRow, fun d hd => (h.isFrom d hd).mono (l.book_append record), h.read, h.current, h.last⟩

theorem rest (h : l.Counts c deeds)
    (hSame : c'.leaving = false → c.leaving = false ∧ c'.given new = c.collected)
    (hInHand : c'.inHand.Sublist c.inHand) (hGiven : c'.given new <+: c.collected) :
    l.Counts c' (deeds ++ new) := by
  have hPrefix : c'.given (deeds ++ new) <+: c.given deeds := by
    rw [Custody.given_append]
    exact (List.prefix_append_right_inj _).mpr hGiven
  refine ⟨fun o => ?_, fun d hd => h.isFrom d (hPrefix.subset hd),
    fun d hd => h.read d (hPrefix.subset hd), ?_, fun d hd => h.last d (hInHand.subset hd)⟩
  · obtain ⟨n, hHandles⟩ := h.inRow o
    exact ⟨_, handOuts_of_prefix (hHandles ▸ handlesAt_prefix hPrefix)⟩
  · intro hStays o ho
    obtain ⟨hStayed, hEq⟩ := hSame hStays
    rw [Custody.given_append, hEq]
    exact h.current hStayed o ho

/-- As long as the worker stays, the ledger knows how often a record was handed out that is pending
or was not read. -/
theorem known (h : l.Counts c deeds) (hSound : l.Sound) (hStays : c.leaving = false) {o : Int}
    (ho : o ∈ l.pendingOffsets ∨ (l.position : Int) ≤ o) :
    Delivery.handlesAt o (c.given deeds) = handOuts o 1 (l.times o) := by
  rcases ho with ho | ho
  · exact h.current hStays o ho
  · rw [hSound.times_eq_zero ho, Delivery.handlesAt_eq_nil.mpr]
    · rfl
    · intro hIn
      obtain ⟨d, hd, rfl⟩ := List.mem_map.mp hIn
      have hRead := h.read d hd
      omega

theorem handOut (h : l.Counts c deeds) (hInStep : l.InStep c deeds) {ds : List Delivery}
    (hOut : l.HandsOut ds l') (hStays : c.leaving = false)
    (hInHand : c'.inHand = c.inHand ++ ds) (hGiven : c'.given new = c.collected ++ ds) :
    l'.Counts c' (deeds ++ new) := by
  have hAll : c'.given (deeds ++ new) = c.given deeds ++ ds := by
    rw [Custody.given_append, hGiven, ← List.append_assoc]
    rfl
  have hPosition := hOut.position
  -- A record that is handed out was queued or not read before, so its number was known.
  have hNext : ∀ o, o ∈ l.pendingOffsets ∨ (l.position : Int) ≤ o →
      Delivery.handlesAt o (c.given deeds ++ ds) = handOuts o 1 (l'.times o) := by
    intro o ho
    rw [Delivery.handlesAt_append, h.known hInStep.sound hStays ho]
    by_cases hIn : o ∈ Delivery.offsets ds
    · obtain ⟨hTimes, hHandles⟩ := hOut.times_handed hIn
      rw [hHandles, hTimes, ← handOuts_append, Nat.add_comm 1]
      rfl
    · rw [hOut.times_other hIn, Delivery.handlesAt_eq_nil.mpr hIn, List.append_nil]
  have hBook : l'.book = l.book := book_eq hOut.records
  refine ⟨fun o => ?_, fun d hd => ?_, fun d hd => ?_, fun _ o ho => ?_, fun d hd => ?_⟩
  · rw [hAll]
    by_cases hIn : o ∈ Delivery.offsets ds
    · refine ⟨_, hNext o ((hOut.origin o hIn).imp_left fun hQueued => ?_)⟩
      obtain ⟨e, he, -, hOffset⟩ := mem_queuedOffsets.mp hQueued
      exact List.mem_map.mpr ⟨e, he, hOffset⟩
    · rw [Delivery.handlesAt_append, Delivery.handlesAt_eq_nil.mpr hIn, List.append_nil]
      exact h.inRow o
  · rw [hAll, List.mem_append] at hd
    rw [hBook]
    exact hd.elim (h.isFrom d) (hOut.isFrom d)
  · rw [hAll, List.mem_append] at hd
    rcases hd with hd | hd
    · have hRead := h.read d hd
      omega
    · obtain ⟨e, he, hOffset⟩ := List.mem_map.mp (hOut.mem_pending (List.mem_map_of_mem hd))
      rw [← hOffset]
      exact (hOut.sound.entries e he).2.2.1
  · rw [hAll]
    exact hNext o (((hOut.pending o).mp ho).imp_right And.left)
  · rw [hInHand, List.mem_append] at hd
    rcases hd with hd | hd
    · have hOpen := hInStep.opened _ (c.mem_offsets_of_inHand hd)
      rw [h.last d hd, hOut.times_other (hOut.not_mem_of_open hOpen)]
    · exact hOut.count_eq_times hd

theorem reached {d : Deed} (h : l.Counts c deeds) (hInStep : l.InStep c deeds)
    (hPartition : ∀ handle ∈ d.handles, handle.partition = 0)
    (hOffsets : c.offsets.Perm (d.handles.map (·.offset) ++ c'.offsets))
    (hLeaving : c'.leaving = c.leaving) (hInHand : c'.inHand.Sublist c.inHand)
    (hGiven : c'.given [d] = c.collected) : (l.reached d).Counts c' (deeds ++ [d]) := by
  have hAll : c'.given (deeds ++ [d]) = c.given deeds := by
    rw [Custody.given_append, hGiven]
    rfl
  refine ⟨hAll ▸ h.inRow, hAll ▸ h.isFrom, hAll ▸ h.read, fun hStays o ho => ?_, fun d' hd' => ?_⟩
  · obtain ⟨hPending, hNot⟩ := (hInStep.sound.mem_pending_reached hPartition).mp ho
    rw [hAll, times_reached hPartition hNot]
    exact h.current (hLeaving ▸ hStays) o hPending
  · -- What is still in hand is not among the settled messages.
    have hKept : d'.handle.offset ∈ c'.offsets := c'.mem_offsets_of_inHand hd'
    obtain ⟨-, -, hApart⟩ := List.nodup_append.mp (hOffsets.nodup_iff.mp hInStep.nodup)
    rw [h.last d' (hInHand.subset hd'), times_reached hPartition]
    exact fun hIn => hApart _ (List.map_subset _ d.acked_subset hIn) _ hKept rfl

theorem commit (h : l.Counts c deeds) (hSound : l.Sound) :
    (source.commit l).2.Counts c deeds := by
  obtain ⟨-, -, hRecords, hPosition, -, hPending⟩ := hSound.commit
  have hBook : (source.commit l).2.book = l.book := book_eq hRecords
  refine ⟨h.inRow, hBook ▸ h.isFrom, hPosition ▸ h.read, ?_, hSound.times_commit ▸ h.last⟩
  rw [pendingOffsets, hPending, hSound.times_commit]
  exact h.current

theorem serves (h : l.Counts c deeds) (hInStep : l.InStep c deeds)
    (hServes : l.Serves c new c' l') : l'.Counts c' (deeds ++ new) := by
  cases hServes with
  | rest hIdle hOffsets hSame hInHand hGiven =>
    exact h.rest (fun hStays => ⟨(hSame hStays).1, (hSame hStays).2.2⟩) hInHand hGiven
  | handOut hIdle hOut hOffsets hLeaving hStays hInHand hGiven =>
    exact h.handOut hInStep hOut hStays hInHand hGiven
  | settle hPartition hOffsets hLeaving hLog hInHand hGiven =>
    have hReached := h.reached hInStep hPartition hOffsets hLeaving hInHand hGiven
    obtain ⟨rfl, -⟩ | rfl := hLog
    · exact hReached
    · exact hReached.commit (hInStep.sound.reached _)

end Counts

end Log

end EventIngest
