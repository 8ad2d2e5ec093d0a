import EventIngest.Proofs.PutAside
import Mathlib.Data.List.Basic
/-!
# A log that has been read out

A fetch that brings nothing shows that all was read and that nothing is queued. From then on a
worker only settles what it has, as long as it gives no batch back.
-/
namespace EventIngest

open Journal

namespace Happening

/-- What a fetch brought that did not fail. -/
def fetched? : Happening → Option (List Delivery)
  | .fetched (.ok deliveries) => some deliveries
  | _ => none

/-- A call that failed and was to settle messages. -/
def isFailedCall : Happening → Bool
  | .ack _ (.error _) | .nak _ (.error _) => true
  | .commit (.error _) | .deadLetter _ _ _ (.error _) => true
  | _ => false

theorem not_failed_of_calm {call : Happening} (h : call.isFailedCall = false) :
    call.isFailedSettlement = false ∧ call.isFailedLetter = false ∧
      ∀ e, call ≠ .commit (.error e) := by
  refine ⟨?_, ?_, ?_⟩
  · unfold isFailedSettlement
    split <;> first | cases h | rfl
  · unfold isFailedLetter
    split <;> first | cases h | rfl
  · rintro e rfl
    cases h

end Happening

namespace Journal

def fetches (journal : List Happening) : List (List Delivery) :=
  journal.filterMap Happening.fetched?

end Journal

namespace Deed

/-- All that the deed was to settle was settled. -/
def IsCalm (d : Deed) : Prop := ∀ call ∈ d.calls, call.isFailedCall = false

def received? : Deed → Option (List Delivery)
  | receive deliveries => some deliveries
  | _ => none

variable {d : Deed}

theorem IsCalm.isThrough (h : d.IsCalm) : d.IsThrough :=
  isThrough_of_noneFailed fun call hCall => (Happening.not_failed_of_calm (h call hCall)).1

theorem IsCalm.letters (h : d.IsCalm) : ∀ call ∈ d.calls, call.isFailedLetter = false :=
  fun call hCall => (Happening.not_failed_of_calm (h call hCall)).2.1

theorem IsIdle.putAside (h : d.IsIdle) : d.putAside = [] := by
  cases d with
  | reject handle m letter answer => cases h.2.1
  | _ => rfl

theorem fetches_calls (d : Deed) : fetches d.calls = d.received?.toList := by
  cases d with
  | reject h m letter answer => match letter with | none | some (.ok _) | some (.error _) => rfl
  | store parcels failures answer | giveUp parcels failures answer =>
    have hReading := batch_reading (f := Happening.fetched?) (fun _ => rfl) (fun _ _ => rfl)
      (fun _ => rfl) parcels failures answer
    simp [fetches, hReading, received?, Happening.fetched?]
  | _ => rfl

/-- Unless a batch is given back, what is given back holds no event. -/
theorem refusal_of_returned (hKept : d.failedSize? = none) {handle : Handle}
    (hReturned : handle ∈ d.returned) : ∃ m, d.refusal? = some (handle, m) := by
  match d with
  | .giveUp parcels failures answer => cases hKept
  | .reject h m none (.ok _) | .reject h m (some (.error _)) (.ok _) =>
    obtain rfl := List.mem_singleton.mp hReturned
    exact ⟨m, rfl⟩
  | .reject h m (some (.ok _)) _ | .reject h m none (.error _)
  | .reject h m (some (.error _)) (.error _)
  | .store .. | .ask .. | .receive _ | .miss _ | .stall | .accept _ | .commit _ =>
    exact absurd hReturned List.not_mem_nil

end Deed

open Deed

namespace Worker.Chronicle

variable {φ ψ : Type} {settings : WorkerSettings} {w : Worker φ ψ} {journal : List Happening}
  {deeds : List Deed}

/-- A reading that finds at most one thing in the calls of a deed. -/
theorem filterMap_eq {β : Type} {f : Happening → Option β} {g : Deed → Option β}
    (hNotice : ∀ n, f (.notice n) = none) (hInsert : ∀ rows, f (.insert rows) = none)
    (hFailed : ∀ rows e, f (.inserted rows (.error e)) = none)
    (hCalls : ∀ d : Deed, d.calls.filterMap f = (g d).toList)
    (h : Chronicle settings w journal deeds) : journal.filterMap f = deeds.filterMap g := by
  rw [← filterMap_calls hNotice, h.reading_eq hInsert hFailed, List.filterMap_flatMap,
    List.filterMap_eq_flatMap_toList]
  exact congrArg (deeds.flatMap ·) (funext hCalls)

theorem fetches_eq (h : Chronicle settings w journal deeds) :
    fetches journal = deeds.filterMap received? :=
  h.filterMap_eq (fun _ => rfl) (fun _ => rfl) (fun _ _ => rfl) fetches_calls

end Worker.Chronicle

namespace Log

open Ledger

section Moves

variable {l l' : Log} {c c' : Custody Waiting} {deeds new : List Deed}

theorem Serves.deadLettered (h : l.Serves c new c' l') :
    l'.deadLettered.toList = l.deadLettered.toList ++ new.flatMap putAside := by
  have hIdle : (∀ d ∈ new, d.IsIdle) → new.flatMap putAside = [] :=
    fun hNew => List.flatMap_eq_nil_iff.mpr fun d hd => (hNew d hd).putAside
  cases h with
  | rest hNew => rw [hIdle hNew, List.append_nil]
  | handOut hNew hOut => rw [hIdle hNew, List.append_nil, hOut.deadLettered]
  | @settle d _ _ _ _ _ hLog =>
    have hReached : (l.reached d).deadLettered.toList = l.deadLettered.toList ++ d.putAside := by
      simp [reached]
    rw [List.flatMap_singleton]
    obtain ⟨rfl, -⟩ | rfl := hLog <;> exact hReached

/-- A log that is committed up to its frontier is so again after each move, once the worker owes no
commit. -/
theorem Serves.committed_eq (h : l.Serves c new c' l') (hSound : l.Sound)
    (hCalm : ∀ d ∈ new, d.IsCalm) (hBefore : c.owing = false → l.committed = l.frontier)
    (hOwing : c'.owing = false) : l'.committed = l'.frontier := by
  cases h with
  | rest _ _ _ _ _ hSame => exact hBefore (hSame ▸ hOwing)
  | handOut _ hOut _ _ _ _ _ hSame =>
    rw [hOut.committed, hOut.frontier]
    exact hBefore (hSame ▸ hOwing)
  | @settle d _ _ _ _ _ hLog =>
    obtain ⟨-, hOwes | ⟨e, hFailed⟩⟩ | rfl := hLog
    · rw [hOwes] at hOwing
      cases hOwing
    · exact absurd rfl
        ((Happening.not_failed_of_calm (hCalm d (List.mem_singleton_self d) _ hFailed)).2.2 e)
    · obtain ⟨-, hCommitted, -, hPosition, -, hPending⟩ := (hSound.reached d).commit
      rw [hCommitted, frontier, frontier, hPending, hPosition]

end Moves

section Fetching

variable {l : Log}

/-- As long as fewer are handed out than could be, all that were queued are. -/
theorem handOutQueued_all {n : Nat} {es : List Entry} (h : (handOutQueued n es).1.length < n) :
    queuedOffsets (handOutQueued n es).2 = [] := by
  fun_induction handOutQueued n es <;> simp_all [queuedOffsets, Entry.handOut]

theorem read_nil {max : Nat} (hSound : l.Sound) (hMax : 0 < max) (h : (read max l).1 = []) :
    l.position = l.records.size ∧ (read max l).2 = l := by
  cases max with
  | zero => cases hMax
  | succ max =>
    rw [read] at h ⊢
    split at h
    · rename_i hNone
      have hPosition := hSound.position
      have hSize := Array.getElem?_eq_none_iff.mp hNone
      exact ⟨by omega, rfl⟩
    · cases h

/-- A fetch that waits is short of messages, and leaves none queued. -/
theorem fetch_waits (hSound : l.Sound) {max : Nat} {wait time : Duration} {call : Waiting}
    (h : (source.fetch l max wait).1 = .waiting time call) :
    call.collected.length < call.max ∧
      queuedOffsets (source.fetch l max wait).2.ledger.pending = [] := by
  have hAgain := HandsOut.redeliver hSound max
  have hFresh := HandsOut.read hAgain.sound (max - (l.ledger.redeliver max).1.length)
  simp only [source] at h ⊢
  split at h
  · rename_i hShort
    obtain ⟨-, rfl⟩ := Fetch.waiting.inj h
    rw [if_pos hShort]
    refine ⟨hShort, List.eq_nil_iff_forall_not_mem.mpr fun o ho => ?_⟩
    have hNone : queuedOffsets (handOutQueued max l.ledger.pending).2 = [] := by
      rw [List.length_append] at hShort
      exact handOutQueued_all (Nat.lt_of_le_of_lt (Nat.le_add_right _ _) hShort)
    exact List.not_mem_nil (hNone ▸ hFresh.queued o ho)
  · cases h

end Fetching

/-- What a log shows of the deeds of a worker over it: what was acknowledged, what was put aside
and, as long as nothing failed, how far it is committed. -/
structure Shown (settings : WorkerSettings) (l : Log) (c : Custody Waiting) (deeds : List Deed) :
    Prop where
  followed : l.Followed settings c deeds
  covered : l.Covered (IsAcked deeds)
  aside : l.deadLettered.toList = deeds.flatMap putAside
  awaited : ∀ call, c.call = some call →
    call.collected.length < call.max ∧ queuedOffsets l.ledger.pending = []
  committed : (∀ d ∈ deeds, d.IsCalm) → c.owing = false → l.committed = l.frontier

namespace Shown

variable {γ : Type} {guard : Guard γ} {settings : WorkerSettings} {l : Log} {s s' : γ × Log}
  {c c' : Custody Waiting} {deeds new : List Deed}

theorem start (settings : WorkerSettings) (records : Array (List UInt8)) :
    Shown settings { records } {} [] :=
  ⟨.start settings records, .start records, rfl, nofun, fun _ _ => rfl⟩

theorem append (h : l.Shown settings c deeds) (record : List UInt8) :
    (l.append record).Shown settings c deeds :=
  ⟨h.followed.append record, h.covered.append record, h.aside, h.awaited, h.committed⟩

/-- Only a fetch begins to wait. -/
theorem move_awaited (hSound : s.2.Sound)
    (h : ∀ call, c.call = some call →
      call.collected.length < call.max ∧ queuedOffsets s.2.ledger.pending = [])
    (hMove : Custody.Move (source.guarded guard) settings c s new c' s') :
    ∀ call, c'.call = some call →
      call.collected.length < call.max ∧ queuedOffsets s'.2.ledger.pending = [] := by
  cases hMove with
  | rest => exact h
  | leave | resume =>
    intro call hWaits
    cases hWaits
  | fetch s max wait hCall =>
    intro call hWaits
    obtain ⟨hFetch, hLog⟩ | ⟨obstacle, hFetch, -⟩ := guard.fetch_cases source s max wait
    · rw [hFetch] at hWaits
      rw [hLog]
      cases hAnswer : (source.fetch s.2 max wait).1 with
      | waiting time call' =>
        rw [hAnswer] at hWaits
        obtain rfl := Option.some.inj hWaits
        exact fetch_waits hSound hAnswer
      | answered answer =>
        rw [hAnswer] at hWaits
        cases answer <;> cases hWaits
      | stalled | crashed =>
        rw [hAnswer] at hWaits
        cases hWaits
    · rw [hFetch] at hWaits
      cases obstacle <;> simp [Obstacle.fetch, Custody.fetched] at hWaits
  | accept s _ _ hCall | reject s _ _ hCall | commit s _ hCall | store s _ _ hCall
  | giveUp s _ _ hCall =>
    intro call hWaits
    simp only [hCall] at hWaits
    cases hWaits

theorem move (h : s.2.Shown settings c deeds)
    (hMove : Custody.Move (source.guarded guard) settings c s new c' s') :
    s'.2.Shown settings c' (deeds ++ new) := by
  have hSound := h.followed.inStep.sound
  have hServes := move_serves guard hSound h.followed.inStep.faithful hMove
  refine ⟨h.followed.move hMove, ?_, ?_, move_awaited hSound h.awaited hMove, fun hCalm => ?_⟩
  · refine (h.covered.mono fun o ho => ho.append new).serves hServes hSound ?_
    exact fun d hd handle hh => ⟨d, List.mem_append_right _ hd, handle, hh, rfl⟩
  · rw [hServes.deadLettered, h.aside, List.flatMap_append]
  · obtain ⟨hBefore, hNew⟩ := List.forall_mem_append.mp hCalm
    exact hServes.committed_eq hSound hNew (h.committed hBefore)

end Shown

/-- All is read, nothing is queued, and the worker has taken in all that is pending. -/
structure Quiet (l : Log) (c : Custody Waiting) : Prop where
  read : l.position = l.records.size
  queued : queuedOffsets l.ledger.pending = []
  inHand : c.inHand = []
  opened : ∀ o ∈ openOffsets l.ledger.pending, o ∈ c.offsets

namespace Quiet

variable {l l' : Log} {c c' : Custody Waiting} {new : List Deed}

/-- From a log that is read to its end and has nothing queued, nothing is handed out. -/
theorem handsOut_nil (h : l.Quiet c) {ds : List Delivery} (hOut : l.HandsOut ds l') :
    ds = [] ∧ l'.position = l.position := by
  have hPosition : l'.position = l.position := by
    have hLe := hOut.position
    have hSize := hOut.sound.position
    rw [hOut.records, ← h.read] at hSize
    omega
  refine ⟨List.eq_nil_iff_forall_not_mem.mpr fun d hd => ?_, hPosition⟩
  have hOffset : d.handle.offset ∈ Delivery.offsets ds := List.mem_map_of_mem hd
  rcases hOut.origin _ hOffset with hQueued | hNew
  · exact List.not_mem_nil (h.queued ▸ hQueued)
  · obtain ⟨e, he, hSame⟩ := List.mem_map.mp (hOut.mem_pending hOffset)
    have hBelow := (hOut.sound.entries e he).2.2.1
    omega

theorem reached {d : Deed} (h : l.Quiet c) (hSound : l.Sound)
    (hPartition : ∀ handle ∈ d.handles, handle.partition = 0)
    (hOffsets : c.offsets.Perm (d.handles.map (·.offset) ++ c'.offsets))
    (hInHand : c'.inHand.Sublist c.inHand) (hThrough : d.IsThrough) (hNone : d.returned = []) :
    (l.reached d).Quiet c' := by
  rw [IsThrough, hNone, List.append_nil] at hThrough
  refine ⟨h.read, List.eq_nil_iff_forall_not_mem.mpr fun o ho => ?_,
    List.sublist_nil.mp (h.inHand ▸ hInHand), fun o ho => ?_⟩
  · rcases hSound.mem_queued_reached hPartition ho with hQueued | hReturned
    · exact List.not_mem_nil (h.queued ▸ hQueued)
    · rw [hNone] at hReturned
      exact List.not_mem_nil hReturned
  · obtain ⟨⟨hOpen, hNotAcked⟩, -⟩ := (hSound.mem_open_reached hPartition).mp ho
    rw [hThrough] at hNotAcked
    exact (List.mem_append.mp (hOffsets.subset (h.opened o hOpen))).resolve_left hNotAcked

theorem commit (h : l.Quiet c) (hSound : l.Sound) : (source.commit l).2.Quiet c := by
  obtain ⟨-, -, hRecords, hPosition, -, hPending⟩ := hSound.commit
  refine ⟨by rw [hPosition, hRecords, h.read], ?_, h.inHand, ?_⟩
  · rw [hPending]
    exact h.queued
  · rw [hPending]
    exact h.opened

theorem serves (h : l.Quiet c) (hSound : l.Sound) (hServes : l.Serves c new c' l')
    (hThrough : ∀ d ∈ new, d.IsThrough) (hKept : ∀ d ∈ new, d.failedSize? = none) :
    l'.Quiet c' := by
  cases hServes with
  | rest _ _ _ hInHand _ _ hSame =>
    refine ⟨h.read, h.queued, List.sublist_nil.mp (h.inHand ▸ hInHand), ?_⟩
    rw [hSame h.inHand]
    exact h.opened
  | handOut _ hOut hOffsets _ _ hInHand =>
    obtain ⟨rfl, hPosition⟩ := h.handsOut_nil hOut
    rw [Delivery.offsets_nil, List.append_nil] at hOffsets
    refine ⟨by rw [hPosition, hOut.records, h.read], ?_, by rw [hInHand, h.inHand]; rfl, ?_⟩
    · exact List.eq_nil_iff_forall_not_mem.mpr fun o ho =>
        List.not_mem_nil (h.queued ▸ hOut.queued o ho)
    · intro o ho
      rw [hOffsets]
      refine h.opened o ?_
      simpa using hOut.opened.mem_iff.mp ho
  | @settle d _ _ hPartition hOffsets _ hLog hInHand _ hRefused =>
    have hHere := List.mem_singleton_self d
    have hNone : d.returned = [] := by
      refine List.eq_nil_iff_forall_not_mem.mpr fun handle hReturned => ?_
      obtain ⟨m, hRefusal⟩ := refusal_of_returned (hKept d hHere) hReturned
      have hComing := hRefused handle m hRefusal
      rw [(List.append_eq_nil_iff.mp h.inHand).1] at hComing
      exact List.not_mem_nil hComing
    have hReached := h.reached hSound hPartition hOffsets hInHand (hThrough d hHere) hNone
    obtain ⟨rfl, -⟩ | rfl := hLog
    · exact hReached
    · exact hReached.commit (hSound.reached d)

end Quiet

/-- A fetch that brings nothing finds the log read out. -/
theorem Shown.quiet_of_nothing_fetched {γ : Type} {guard : Guard γ} {settings : WorkerSettings}
    {s s' : γ × Log} {c c' : Custody Waiting} {deeds new : List Deed}
    (h : s.2.Shown settings c deeds) (hSize : 0 < settings.batchSize)
    (hMove : Custody.Move (source.guarded guard) settings c s new c' s')
    (hNothing : [] ∈ new.filterMap received?) (hThrough : ∀ d ∈ deeds ++ new, d.IsThrough) :
    s'.2.Quiet c' := by
  have hInStep := (h.followed.move hMove).inStep
  suffices hEnd : s'.2.position = s'.2.records.size ∧
      queuedOffsets s'.2.ledger.pending = [] ∧ c'.inHand = [] ∧ c'.leaving = false from
    ⟨hEnd.1, hEnd.2.1, hEnd.2.2.1, hInStep.noneStuck hThrough hEnd.2.2.2⟩
  have hSound := h.followed.inStep.sound
  cases hMove with
  | fetch s max wait hCall hComing hMax hRoom =>
    -- A fetch has room for a message, so it waits when it finds none.
    have hPos : 0 < max := hMax ▸ Nat.sub_pos_of_lt (hRoom hSize)
    exfalso
    rw [List.filterMap_cons_none rfl] at hNothing
    obtain ⟨hFetch, -⟩ | ⟨obstacle, hFetch, -⟩ := guard.fetch_cases source s max wait
    · rw [hFetch] at hNothing
      simp only [source] at hNothing
      split at hNothing
      · cases hNothing
      · rename_i hFull
        refine hFull ?_
        rw [← List.mem_singleton.mp hNothing]
        exact hPos
    · rw [hFetch] at hNothing
      cases obstacle <;> cases hNothing
  | resume s call hCall hComing hStays =>
    obtain ⟨hShort, hQueued⟩ := h.awaited call hCall
    obtain ⟨hNone, hFresh⟩ := List.append_eq_nil_iff.mp (List.mem_singleton.mp hNothing).symm
    obtain ⟨hRead, hSame⟩ := read_nil hSound (Nat.sub_pos_of_lt hShort) hFresh
    have hLog : (source.resume s.2 call).2 = s.2 := hSame
    refine ⟨?_, ?_, ?_, hStays⟩
    · simp only [Source.guarded, hLog]
      exact hRead
    · simp only [Source.guarded, hLog]
      exact hQueued
    · rw [Custody.inHand_fetched hComing]
      exact (List.mem_singleton.mp hNothing).symm
  | rest | leave | accept | reject | commit | store | giveUp => simp [received?] at hNothing

end Log

end EventIngest
