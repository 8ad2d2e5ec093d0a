import EventIngest.Proofs.Balance
import EventIngest.Proofs.HandOuts
import EventIngest.Proofs.SettledOnce
/-!
# What is put aside

A message without an event is put aside when it was handed out often enough, and no other message
ever is. Over a log without restarts each such record is given back at every hand-out but the last
one allowed, is put aside at that one, and is not handed out again.
-/
namespace EventIngest

open Journal

inductive Dealing where
  | ack
  | nak
  | putAside (raw : List UInt8) (reason : String)
  deriving DecidableEq

namespace Happening

def dealing? : Happening → Option (Handle × Dealing)
  | .ack h _ => some (h, .ack)
  | .nak h _ => some (h, .nak)
  | .deadLetter h raw reason _ => some (h, .putAside raw reason)
  | _ => none

def letter? : Happening → Option (Handle × List UInt8 × String)
  | .deadLetter h raw reason _ => some (h, raw, reason)
  | _ => none

def isFailedLetter : Happening → Bool
  | .deadLetter _ _ _ (.error _) => true
  | _ => false

end Happening

namespace Journal

/-- The messages that were put aside, with the bytes and the reason. -/
def letters (journal : List Happening) : List (Handle × List UInt8 × String) :=
  journal.filterMap Happening.letter?

def dealingsAt (o : Int) (journal : List Happening) : List (Handle × Dealing) :=
  (journal.filterMap Happening.dealing?).filter (·.1.offset == o)

theorem noneFailed_of_letters_nil {journal : List Happening} (h : letters journal = []) :
    ∀ call ∈ journal, call.isFailedLetter = false := by
  intro call hCall
  have hNone := List.filterMap_eq_nil_iff.mp h call hCall
  cases call <;> first | rfl | cases hNone

theorem dealingsAt_append (o : Int) (a b : List Happening) :
    dealingsAt o (a ++ b) = dealingsAt o a ++ dealingsAt o b := by
  rw [dealingsAt, List.filterMap_append, List.filter_append]
  rfl

end Journal

namespace Malformed

/-- What is put aside of a message without an event, if it was handed out often enough. -/
def letter? (m : Malformed) (maxDeliver : Nat) (h : Handle) :
    Option (Handle × List UInt8 × String) :=
  if Desk.isSpent maxDeliver h then some (h, m.raw, m.reason.message) else none

def treatment (m : Malformed) (maxDeliver : Nat) (h : Handle) : List (Handle × Dealing) :=
  if Desk.isSpent maxDeliver h then [(h, .putAside m.raw m.reason.message), (h, .ack)]
  else [(h, .nak)]

theorem treatment_unspent (m : Malformed) {maxDeliver : Nat} {hs : List Handle}
    (h : ∀ h ∈ hs, Desk.isSpent maxDeliver h = false) :
    hs.flatMap (m.treatment maxDeliver) = hs.map fun h => (h, .nak) := by
  induction hs with
  | nil => rfl
  | cons handle hs ih =>
    obtain ⟨hHere, hRest⟩ := List.forall_mem_cons.mp h
    rw [List.flatMap_cons, ih hRest, treatment, hHere]
    rfl

end Malformed

def Delivery.due? (maxDeliver : Nat) (d : Delivery) : Option (Handle × List UInt8 × String) :=
  d.refusal?.bind fun r => r.2.letter? maxDeliver r.1

namespace Deed

variable {settings : WorkerSettings} {d : Deed}

/-- Of a batch, a reading that passes over the store and the commit reads the settlement. -/
theorem batch_reading {β : Type} {f : Happening → Option β}
    (hInsert : ∀ rows, f (.insert rows) = none)
    (hInserted : ∀ rows result, f (.inserted rows result) = none)
    (hCommit : ∀ answer, f (.commit answer) = none) (parcels : List (Parcel × Answer))
    (failures : List StoreError) (answer : Answer) :
    (store parcels failures answer).calls.filterMap f
        = parcels.filterMap (fun p => f (.ack p.1.handle p.2)) ∧
      (giveUp parcels failures answer).calls.filterMap f
        = parcels.filterMap (fun p => f (.nak p.1.handle p.2)) := by
  have hAttempts := fun rows =>
    failedAttempts_filterMap hInsert (fun rows e => hInserted rows (.error e)) rows failures
  have hSettled (told : Parcel × Answer → Happening) :
      (parcels.map told).filterMap f = parcels.filterMap fun p => f (told p) := List.filterMap_map
  constructor <;>
    simp only [calls, List.filterMap_append, List.filterMap_cons, List.filterMap_nil, hSettled,
      hAttempts, hInsert, hInserted, hCommit, List.append_nil, List.nil_append]

theorem letters_calls (h : Custody.Allows settings d) :
    letters d.calls = d.refusal?.toList.filterMap fun r => r.2.letter? settings.maxDeliver r.1 := by
  cases d with
  | store parcels failures answer | giveUp parcels failures answer =>
    have hReading := batch_reading (f := Happening.letter?) (fun _ => rfl) (fun _ _ => rfl)
      (fun _ => rfl) parcels failures answer
    simp [letters, hReading, refusal?, Happening.letter?]
  | reject h' m letter answer =>
    have hLetter : letter.isSome = Desk.isSpent settings.maxDeliver h' := h
    rcases letter with _ | _ | _ <;>
      simp [letters, calls, rejection, Happening.letter?, refusal?, Malformed.letter?, ← hLetter]
  | _ => rfl

theorem dealingsAt_calls (h : Custody.Allows settings d)
    (hLetter : ∀ call ∈ d.calls, call.isFailedLetter = false) {o : Int}
    (hBatch : ∀ p ∈ d.batch, p.handle.offset ≠ o) :
    dealingsAt o d.calls = (d.refusal?.toList.filter (·.1.offset == o)).flatMap
      fun r => r.2.treatment settings.maxDeliver r.1 := by
  cases d with
  | store parcels failures answer | giveUp parcels failures answer =>
    have hReading := batch_reading (f := Happening.dealing?) (fun _ => rfl) (fun _ _ => rfl)
      (fun _ => rfl) parcels failures answer
    have hOther : ∀ p ∈ parcels, p.1.handle.offset ≠ o :=
      fun p hp => hBatch p.1 (List.mem_map_of_mem hp)
    simp only [dealingsAt, hReading]
    refine List.filter_eq_nil_iff.mpr fun r hr => ?_
    obtain ⟨p, hp, hDealing⟩ := List.mem_filterMap.mp hr
    obtain rfl := Option.some.inj hDealing
    simpa using hOther p hp
  | reject h' m letter answer =>
    have hSpent : letter.isSome = Desk.isSpent settings.maxDeliver h' := h
    rcases letter with _ | _ | _
    · by_cases ho : h'.offset = o <;>
        simp [dealingsAt, calls, rejection, Happening.dealing?, refusal?, Malformed.treatment,
          ← hSpent, ho]
    · cases hLetter _ List.mem_cons_self
    · by_cases ho : h'.offset = o <;>
        simp [dealingsAt, calls, rejection, Happening.dealing?, refusal?, Malformed.treatment,
          ← hSpent, ho]
  | _ => rfl

variable {deeds : List Deed}

theorem letters_flatMap_calls (h : ∀ d ∈ deeds, Custody.Allows settings d) :
    letters (deeds.flatMap calls)
      = (allRefusals deeds).filterMap fun r => r.2.letter? settings.maxDeliver r.1 := by
  induction deeds with
  | nil => rfl
  | cons d deeds ih =>
    obtain ⟨hHere, hRest⟩ := List.forall_mem_cons.mp h
    rw [allRefusals_cons, List.filterMap_append, ← letters_calls hHere, ← ih hRest,
      List.flatMap_cons]
    exact List.filterMap_append

theorem dealingsAt_flatMap_calls (h : ∀ d ∈ deeds, Custody.Allows settings d)
    (hLetters : ∀ d ∈ deeds, ∀ call ∈ d.calls, call.isFailedLetter = false) {o : Int}
    (hBatches : ∀ p ∈ allBatches deeds, p.handle.offset ≠ o) :
    dealingsAt o (deeds.flatMap calls) = ((allRefusals deeds).filter (·.1.offset == o)).flatMap
      fun r => r.2.treatment settings.maxDeliver r.1 := by
  induction deeds with
  | nil => rfl
  | cons d deeds ih =>
    obtain ⟨hHere, hRest⟩ := List.forall_mem_cons.mp h
    obtain ⟨hLetter, hOthers⟩ := List.forall_mem_cons.mp hLetters
    have hBatch : ∀ p ∈ d.batch, p.handle.offset ≠ o := fun p hp =>
      hBatches p (List.mem_append_left _ hp)
    rw [allRefusals_cons, List.filter_append, List.flatMap_append,
      ← dealingsAt_calls hHere hLetter hBatch, List.flatMap_cons, dealingsAt_append,
      ih hRest hOthers fun p hp => hBatches p (List.mem_append_right _ hp)]

end Deed

namespace Worker.Chronicle

open Deed

variable {φ ψ : Type} {settings : WorkerSettings} {w : Worker φ ψ} {journal : List Happening}
  {deeds : List Deed}

theorem letters_eq (h : Chronicle settings w journal deeds)
    (hAllows : ∀ d ∈ deeds, Custody.Allows settings d) :
    letters journal
      = (allRefusals deeds).filterMap fun r => r.2.letter? settings.maxDeliver r.1 := by
  rw [← letters_flatMap_calls hAllows, letters, letters, ← filterMap_calls fun _ => rfl,
    h.reading_eq (fun _ => rfl) fun _ _ => rfl]

theorem letters_unlimited (h : Chronicle settings w journal deeds)
    (hAllows : ∀ d ∈ deeds, Custody.Allows settings d) (hLimit : settings.maxDeliver = 0) :
    letters journal = [] := by
  rw [h.letters_eq hAllows, List.filterMap_eq_nil_iff]
  intro r _
  simp [Malformed.letter?, Desk.isSpent, hLimit]

end Worker.Chronicle

namespace Log

open Deed Ledger

def Undecodable (l : Log) (o : Int) (m : Malformed) : Prop := m.IsFrom l.book ⟨0, o, 0⟩

namespace Undecodable

variable {l : Log} {o : Int} {m : Malformed}

/-- A record that was there before others were appended is the same still. -/
theorem of_append {record raw : List UInt8} (h : (l.append record).Undecodable o m)
    (hRaw : l.book ⟨0, o, 0⟩ = some raw) : l.Undecodable o m := by
  have hSame := (l.book_append record _ _ hRaw).symm.trans h.1
  exact ⟨hRaw.trans hSame, h.2⟩

theorem book_eq_of_offset {h : Handle} (hPartition : h.partition = 0) (hOffset : h.offset = o)
    (hm : l.Undecodable o m) : l.book h = some m.raw := by
  obtain ⟨partition, offset, count⟩ := h
  obtain rfl : partition = 0 := hPartition
  obtain rfl : offset = o := hOffset
  exact hm.1

theorem not_parcel (hm : l.Undecodable o m) {p : Parcel} (hp : p.IsFrom l.book) :
    p.handle.offset ≠ o := by
  intro hOffset
  obtain ⟨raw, hRaw, hEvent⟩ := hp
  have hSame := hm.book_eq_of_offset (book_eq_some.mp hRaw).1.1 hOffset
  obtain rfl := Option.some.inj (hRaw.symm.trans hSame)
  rw [hm.2] at hEvent
  cases hEvent

theorem delivery_eq (hm : l.Undecodable o m) {d : Delivery} (hd : d.IsFrom l.book)
    (hOffset : d.handle.offset = o) : d = ⟨d.handle, .error m⟩ := by
  obtain ⟨raw, hRaw, hDelivery⟩ := hd
  have hSame := hm.book_eq_of_offset (book_eq_some.mp hRaw).1.1 hOffset
  obtain rfl := Option.some.inj (hRaw.symm.trans hSame)
  refine hDelivery.trans ?_
  simp only [Delivery.ofMessage, Option.getD_some, hm.2]

end Undecodable

/-- A record that holds no event is handed out so often at most, and is queued only below that. -/
structure Limited (maxDeliver : Nat) (l : Log) (c : Custody Waiting) (deeds : List Deed) :
    Prop where
  pending : ∀ o ∈ l.pendingOffsets, ∀ m, l.Undecodable o m → l.times o ≤ maxDeliver
  queued : ∀ o ∈ queuedOffsets l.ledger.pending, ∀ m, l.Undecodable o m → l.times o < maxDeliver
  given : ∀ d ∈ c.given deeds, ∀ m, l.Undecodable d.handle.offset m →
    d.handle.deliveryCount ≤ maxDeliver

theorem Sound.exists_record {l : Log} (h : l.Sound) {o : Int} (ho : o ∈ l.pendingOffsets) :
    ∃ raw, l.book ⟨0, o, 0⟩ = some raw := by
  obtain ⟨e, he, rfl⟩ := List.mem_map.mp ho
  obtain ⟨raw, hRaw, -⟩ := h.isFrom_of_mem he 0
  rw [(h.entries e he).1] at hRaw
  exact ⟨raw, hRaw⟩

theorem mem_pending_of_queued {l : Log} {o : Int} (ho : o ∈ queuedOffsets l.ledger.pending) :
    o ∈ l.pendingOffsets := by
  obtain ⟨e, he, -, hOffset⟩ := mem_queuedOffsets.mp ho
  exact List.mem_map.mpr ⟨e, he, hOffset⟩

namespace Limited

variable {maxDeliver : Nat} {l l' : Log} {c c' : Custody Waiting} {deeds new : List Deed}

theorem start (records : Array (List UInt8)) : Limited maxDeliver { records } {} [] :=
  ⟨List.forall_mem_nil _, List.forall_mem_nil _, List.forall_mem_nil _⟩

theorem append (h : l.Limited maxDeliver c deeds) (hSound : l.Sound) (hCounts : l.Counts c deeds)
    (record : List UInt8) : (l.append record).Limited maxDeliver c deeds := by
  refine ⟨fun o ho m hm => ?_, fun o ho m hm => ?_, fun d hd m hm => ?_⟩
  · obtain ⟨raw, hRaw⟩ := hSound.exists_record ho
    exact h.pending o ho m (hm.of_append hRaw)
  · obtain ⟨raw, hRaw⟩ := hSound.exists_record (mem_pending_of_queued ho)
    exact h.queued o ho m (hm.of_append hRaw)
  · obtain ⟨raw, hRaw, -⟩ := hCounts.isFrom d hd
    obtain ⟨⟨hPartition, hOffset⟩, hRecord⟩ := book_eq_some.mp hRaw
    exact h.given d hd m (hm.of_append (book_eq_some.mpr ⟨⟨rfl, hOffset⟩, hRecord⟩))

theorem handOut (h : l.Limited maxDeliver c deeds) (hLimit : maxDeliver ≠ 0) (hSound : l.Sound)
    {ds : List Delivery} (hOut : l.HandsOut ds l') (hGiven : c'.given new = c.collected ++ ds) :
    l'.Limited maxDeliver c' (deeds ++ new) := by
  have hBook : l'.book = l.book := book_eq hOut.records
  have hPending : ∀ o ∈ l'.pendingOffsets, ∀ m, l.Undecodable o m → l'.times o ≤ maxDeliver := by
    intro o ho m hm
    by_cases hIn : o ∈ Delivery.offsets ds
    · rw [(hOut.times_handed hIn).1]
      rcases hOut.origin o hIn with hQueued | hNew
      · exact h.queued o hQueued m hm
      · rw [hSound.times_eq_zero hNew]
        omega
    · rw [hOut.times_other hIn]
      rcases (hOut.pending o).mp ho with hOld | ⟨hNew, -⟩
      · exact h.pending o hOld m hm
      · rw [hSound.times_eq_zero hNew]
        exact Nat.zero_le _
  refine ⟨fun o ho m hm => ?_, fun o ho m hm => ?_, fun d hd m hm => ?_⟩
  · rw [Undecodable, hBook] at hm
    exact hPending o ho m hm
  · rw [Undecodable, hBook] at hm
    rw [hOut.times_other (hOut.not_mem_of_queued ho)]
    exact h.queued o (hOut.queued o ho) m hm
  · rw [Undecodable, hBook] at hm
    rw [Custody.given_append, hGiven, ← List.append_assoc, List.mem_append] at hd
    rcases hd with hd | hd
    · exact h.given d hd m hm
    · rw [hOut.count_eq_times hd]
      exact hPending _ (hOut.mem_pending (List.mem_map_of_mem hd)) m hm

theorem rest (h : l.Limited maxDeliver c deeds) (hGiven : c'.given new <+: c.collected) :
    l.Limited maxDeliver c' (deeds ++ new) := by
  refine ⟨h.pending, h.queued, fun d hd => h.given d ?_⟩
  rw [Custody.given_append] at hd
  exact ((List.prefix_append_right_inj _).mpr hGiven).subset hd

variable {settings : WorkerSettings} {d : Deed}

/-- A message without an event is given back only when it may be handed out once more. -/
theorem lt_of_returned (hLimit : settings.maxDeliver ≠ 0) (hCounts : l.Counts c deeds)
    (hFaithful : c'.Faithful l.book (deeds ++ [d]))
    (hRefused : ∀ h m, d.refusal? = some (h, m) → ⟨h, .error m⟩ ∈ c.coming)
    (hAllows : Custody.Allows settings d) (hLetter : ∀ call ∈ d.calls, call.isFailedLetter = false)
    {handle : Handle} (hReturned : handle ∈ d.returned) {m : Malformed}
    (hm : l.Undecodable handle.offset m) : l.times handle.offset < settings.maxDeliver := by
  match d with
  | .giveUp parcels failures answer =>
    obtain ⟨p, u, hp, rfl⟩ := mem_answered.mp hReturned
    have hParcel : p ∈ allBatches (deeds ++ [.giveUp parcels failures answer]) := by
      rw [allBatches_append, allBatches_singleton]
      exact List.mem_append_right _ (List.mem_map_of_mem hp)
    exact absurd rfl (hm.not_parcel (hFaithful.batches p hParcel))
  | .reject h m' none (.ok u) =>
    obtain rfl := List.mem_singleton.mp hReturned
    have hLast := hCounts.last _ (List.mem_append_left _ (hRefused handle m' rfl))
    have hSpent : false = Desk.isSpent settings.maxDeliver handle := hAllows
    rw [Desk.isSpent, eq_comm, decide_eq_false_iff_not] at hSpent
    simp only at hLast
    omega
  | .reject h m' (some (.error e)) (.ok u) => cases hLetter _ List.mem_cons_self
  | .reject _ _ none (.error _) | .reject _ _ (some (.error _)) (.error _)
  | .reject _ _ (some (.ok _)) _
  | .store .. | .ask .. | .receive _ | .miss _ | .stall | .accept _ | .commit _ =>
    exact absurd hReturned List.not_mem_nil

theorem reached (h : l.Limited settings.maxDeliver c deeds) (hLimit : settings.maxDeliver ≠ 0)
    (hSound : l.Sound) (hCounts : l.Counts c deeds) (hFaithful : c'.Faithful l.book (deeds ++ [d]))
    (hPartition : ∀ handle ∈ d.handles, handle.partition = 0)
    (hRefused : ∀ h m, d.refusal? = some (h, m) → ⟨h, .error m⟩ ∈ c.coming)
    (hGiven : c'.given [d] = c.collected) (hAllows : Custody.Allows settings d)
    (hLetter : ∀ call ∈ d.calls, call.isFailedLetter = false) :
    (l.reached d).Limited settings.maxDeliver c' (deeds ++ [d]) := by
  have hBook : (l.reached d).book = l.book := rfl
  refine ⟨fun o ho m hm => ?_, fun o ho m hm => ?_, fun d' hd m hm => ?_⟩
  · obtain ⟨hPending, hNot⟩ := (hSound.mem_pending_reached hPartition).mp ho
    rw [times_reached hPartition hNot]
    exact h.pending o hPending m hm
  · obtain ⟨-, hNot⟩ := (hSound.mem_pending_reached hPartition).mp (mem_pending_of_queued ho)
    rw [times_reached hPartition hNot]
    rcases hSound.mem_queued_reached hPartition ho with hQueued | hReturned
    · exact h.queued o hQueued m hm
    · obtain ⟨handle, hHandle, rfl⟩ := List.mem_map.mp hReturned
      exact lt_of_returned hLimit hCounts hFaithful hRefused hAllows hLetter hHandle hm
  · rw [Custody.given_append, hGiven] at hd
    exact h.given d' hd m hm

theorem commit (h : l.Limited maxDeliver c deeds) (hSound : l.Sound) :
    (source.commit l).2.Limited maxDeliver c deeds := by
  obtain ⟨-, -, hRecords, -, -, hPending⟩ := hSound.commit
  have hRecord : (source.commit l).2.Undecodable = l.Undecodable := by
    funext o m
    rw [Undecodable, book_eq hRecords, Undecodable]
  refine ⟨?_, ?_, ?_⟩
  · rw [pendingOffsets, hPending, hSound.times_commit, hRecord]
    exact h.pending
  · rw [hPending, hSound.times_commit, hRecord]
    exact h.queued
  · rw [hRecord]
    exact h.given

theorem serves (h : l.Limited settings.maxDeliver c deeds) (hLimit : settings.maxDeliver ≠ 0)
    (hSound : l.Sound) (hCounts : l.Counts c deeds) (hFaithful : c'.Faithful l.book (deeds ++ new))
    (hServes : l.Serves c new c' l') (hAllows : ∀ d ∈ new, Custody.Allows settings d)
    (hLetters : ∀ d ∈ new, ∀ call ∈ d.calls, call.isFailedLetter = false) :
    l'.Limited settings.maxDeliver c' (deeds ++ new) := by
  cases hServes with
  | rest hIdle hOffsets hSame hInHand hGiven => exact h.rest hGiven
  | handOut hIdle hOut hOffsets hLeaving hStays hInHand hGiven =>
    exact h.handOut hLimit hSound hOut hGiven
  | settle hPartition hOffsets hLeaving hLog hInHand hGiven hRefused =>
    have hReached := h.reached hLimit hSound hCounts hFaithful hPartition hRefused hGiven
      (hAllows _ (List.mem_singleton_self _)) (hLetters _ (List.mem_singleton_self _))
    obtain ⟨rfl, -⟩ | rfl := hLog
    · exact hReached
    · exact hReached.commit (hSound.reached _)

end Limited

/-- What a journal tells of a record without an event that was handed out `n` times and dealt with
`k` times: it was put aside, with its bytes and the reason, when it was handed out often enough, and
given back before. -/
structure Tried (maxDeliver : Nat) (o : Int) (m : Malformed) (n k : Nat)
    (journal : List Happening) : Prop where
  arrivals : (arrivals journal).filter (·.handle.offset == o)
    = (handOuts o 1 n).map fun h => ⟨h, .error m⟩
  dealings : dealingsAt o journal = (handOuts o 1 k).flatMap (m.treatment maxDeliver)
  inTime : k ≤ n ∧ n ≤ k + 1
  limit : maxDeliver ≠ 0 → n ≤ maxDeliver

section Spent

variable {maxDeliver : Nat} {o : Int}

theorem unspent_of_mem_handOuts {k : Nat} (hBelow : k < maxDeliver) {h : Handle}
    (hh : h ∈ handOuts o 1 k) : Desk.isSpent maxDeliver h = false := by
  have hCount := (mem_handOuts.mp hh).2.2.2
  simp only [Desk.isSpent, decide_eq_false_iff_not]
  omega

theorem isSpent_last (hLimit : maxDeliver ≠ 0) :
    Desk.isSpent maxDeliver ⟨0, o, maxDeliver⟩ = true := by
  simp [Desk.isSpent, hLimit]

theorem handOuts_eq_append {n : Nat} (hPos : n ≠ 0) :
    handOuts o 1 n = handOuts o 1 (n - 1) ++ [⟨0, o, n⟩] := by
  obtain ⟨i, rfl⟩ := Nat.exists_eq_succ_of_ne_zero hPos
  rw [Nat.succ_eq_add_one, Nat.add_sub_cancel, ← handOuts_append]
  simp [handOuts, Nat.add_comm]

end Spent

namespace Tried

variable {maxDeliver n k : Nat} {o : Int} {m : Malformed} {journal : List Happening}

/-- Without a limit a record is given back at every hand-out. -/
theorem dealings_unlimited (h : Tried 0 o m n k journal) :
    dealingsAt o journal = (handOuts o 1 k).map fun h => (h, .nak) := by
  rw [h.dealings, m.treatment_unspent fun h _ => by simp [Desk.isSpent]]

/-- With a limit a record is given back below it, and put aside and acknowledged at it. -/
theorem dealings_limited (h : Tried maxDeliver o m n k journal) (hLimit : maxDeliver ≠ 0) :
    dealingsAt o journal = (handOuts o 1 (min k (maxDeliver - 1))).map (fun h => (h, .nak)) ++
      if k = maxDeliver then
        [(⟨0, o, maxDeliver⟩, .putAside m.raw m.reason.message), (⟨0, o, maxDeliver⟩, .ack)]
      else [] := by
  have hBelow : ∀ i < maxDeliver, (handOuts o 1 i).flatMap (m.treatment maxDeliver)
      = (handOuts o 1 i).map fun h => (h, .nak) :=
    fun i hi => m.treatment_unspent fun h hh => unspent_of_mem_handOuts hi hh
  have hMost := Nat.le_trans h.inTime.1 (h.limit hLimit)
  rw [h.dealings]
  obtain rfl | hLess := Nat.eq_or_lt_of_le hMost
  · -- The last hand-out is the one that reaches the limit.
    rw [handOuts_eq_append hLimit, List.flatMap_append, hBelow (k - 1) (Nat.pred_lt hLimit),
      if_pos rfl, List.flatMap_singleton, Malformed.treatment, if_pos (isSpent_last hLimit),
      Nat.min_eq_right (Nat.sub_le _ _)]
  · rw [hBelow k hLess, if_neg (Nat.ne_of_lt hLess), List.append_nil, Nat.min_eq_left (by omega)]

end Tried

section Offsets

theorem refused_at {o : Int} {m : Malformed} {ds : List Delivery}
    (h : ∀ d ∈ ds, d.handle.offset = o → d = ⟨d.handle, .error m⟩) :
    ds.filter (·.handle.offset == o) = (Delivery.handlesAt o ds).map (fun h => ⟨h, .error m⟩) ∧
    (ds.filterMap Delivery.refusal?).filter (·.1.offset == o)
      = (Delivery.handlesAt o ds).map fun h => (h, m) := by
  induction ds with
  | nil => exact ⟨rfl, rfl⟩
  | cons d ds ih =>
    obtain ⟨hHere, hRest⟩ := List.forall_mem_cons.mp h
    obtain ⟨hDeliveries, hRefusals⟩ := ih hRest
    rw [Delivery.handlesAt] at hDeliveries hRefusals ⊢
    by_cases ho : d.handle.offset = o
    · rw [hHere ho]
      simp [ho, hDeliveries, hRefusals]
    · obtain ⟨handle, content⟩ := d
      have hOther : (handle.offset == o) = false := by simpa using ho
      cases content <;> simp [List.filterMap_cons, hOther, hDeliveries, hRefusals]

theorem handOuts_split {β : Type} {f : Handle → β} {a b : List β} {o : Int} {n : Nat}
    (h : (handOuts o 1 n).map f = a ++ b) :
    a = (handOuts o 1 a.length).map f ∧ n = a.length + b.length := by
  have hLength := congrArg List.length h
  rw [List.length_map, length_handOuts, List.length_append] at hLength
  refine ⟨?_, hLength⟩
  have hTake := congrArg (List.take a.length) h
  rw [List.take_left, hLength, ← handOuts_append, List.map_append,
    List.take_left' (by rw [List.length_map, length_handOuts])] at hTake
  exact hTake.symm

end Offsets

/-- What is known of a log without restarts and of a worker over it. -/
structure Followed (settings : WorkerSettings) (l : Log) (c : Custody Waiting) (deeds : List Deed) :
    Prop where
  inStep : l.InStep c deeds
  counts : l.Counts c deeds
  accounted : c.Accounted deeds
  allows : ∀ d ∈ deeds, Custody.Allows settings d
  limited : settings.maxDeliver ≠ 0 →
    (∀ d ∈ deeds, ∀ call ∈ d.calls, call.isFailedLetter = false) →
      l.Limited settings.maxDeliver c deeds

namespace Followed

variable {settings : WorkerSettings} {l : Log} {c c' : Custody Waiting} {deeds new : List Deed}

theorem start (settings : WorkerSettings) (records : Array (List UInt8)) :
    Followed settings { records } {} [] :=
  ⟨.start records, .start records, .start, List.forall_mem_nil _, fun _ _ => .start records⟩

theorem append (h : l.Followed settings c deeds) (record : List UInt8) :
    (l.append record).Followed settings c deeds :=
  ⟨h.inStep.append record, h.counts.append record, h.accounted, h.allows, fun hLimit hLetters =>
    (h.limited hLimit hLetters).append h.inStep.sound h.counts record⟩

theorem move {γ : Type} {guard : Guard γ} {s s' : γ × Log} (h : s.2.Followed settings c deeds)
    (hMove : Custody.Move (source.guarded guard) settings c s new c' s') :
    s'.2.Followed settings c' (deeds ++ new) := by
  have hServes := move_serves guard h.inStep.sound h.inStep.faithful hMove
  refine ⟨h.inStep.move hMove, h.counts.serves h.inStep hServes, h.accounted.move hMove,
    List.forall_mem_append.mpr ⟨h.allows, hMove.allows⟩, fun hLimit hLetters => ?_⟩
  obtain ⟨hBefore, hNew⟩ := List.forall_mem_append.mp hLetters
  exact (h.limited hLimit hBefore).serves hLimit h.inStep.sound h.counts
    (move_faithful guard h.inStep.sound h.inStep.faithful hMove) hServes hMove.allows hNew

/-- A record without an event is handed out `n` times and rejected `k` times, in a row. -/
theorem rejections (h : l.Followed settings c deeds) {o : Int} {m : Malformed}
    (hm : l.Undecodable o m) :
    ∃ n k, (allArrivals deeds).filter (·.handle.offset == o)
        = (handOuts o 1 n).map (fun h => ⟨h, .error m⟩) ∧
      (allRefusals deeds).filter (·.1.offset == o) = (handOuts o 1 k).map (fun h => (h, m)) ∧
      (k ≤ n ∧ n ≤ k + 1) ∧ (c.coming = [] → k = n) ∧
      (settings.maxDeliver ≠ 0 →
        (∀ d ∈ deeds, ∀ call ∈ d.calls, call.isFailedLetter = false) →
        n ≤ settings.maxDeliver) := by
  have hPrefix : allArrivals deeds <+: c.given deeds := List.prefix_append _ _
  have hError : ∀ d ∈ allArrivals deeds, d.handle.offset = o → d = ⟨d.handle, .error m⟩ :=
    fun d hd => hm.delivery_eq (h.counts.isFrom d (hPrefix.subset hd))
  obtain ⟨hDeliveries, hRefusals⟩ := refused_at hError
  obtain ⟨all, hAll⟩ := h.counts.inRow o
  have hInRow := handOuts_of_prefix (hAll ▸ handlesAt_prefix hPrefix)
  generalize (Delivery.handlesAt o (allArrivals deeds)).length = n at hInRow
  rw [h.accounted.refusals, List.filter_append, hInRow] at hRefusals
  obtain ⟨hDone, hLength⟩ := handOuts_split hRefusals.symm
  generalize hk : ((allRefusals deeds).filter (·.1.offset == o)).length = k at hDone hLength
  have hComing : ((c.coming.filterMap Delivery.refusal?).filter (·.1.offset == o)).length ≤ 1 := by
    have hNodup := (List.nodup_append.mp (List.nodup_append.mp h.inStep.nodup).1).2.1
    have hFrom : ∀ d ∈ c.coming, d.handle.offset = o → d = ⟨d.handle, .error m⟩ :=
      fun d hd => hm.delivery_eq (h.inStep.faithful.coming d hd)
    rw [(refused_at hFrom).2, List.length_map, Delivery.length_handlesAt, hNodup.count]
    split <;> decide
  refine ⟨n, k, hInRow ▸ hDeliveries, hDone, ⟨by omega, by omega⟩, fun hNone => ?_,
    fun hLimit hLetters => ?_⟩
  · rw [hNone] at hLength
    exact hLength.symm
  · cases n with
    | zero => exact Nat.zero_le _
    | succ n =>
      have hLast : Handle.mk 0 o (n + 1) ∈ handOuts o 1 (n + 1) :=
        mem_handOuts.mpr ⟨rfl, rfl, by simp only; omega⟩
      rw [← hInRow] at hLast
      obtain ⟨⟨d, hd, hHandle⟩, -⟩ := Delivery.mem_handlesAt.mp hLast
      have hGiven := (h.limited hLimit hLetters).given d (hPrefix.subset hd) m
      rw [hHandle] at hGiven
      exact hGiven hm

theorem tried {φ ψ : Type} {w : Worker φ ψ} {journal : List Happening}
    (h : l.Followed settings c deeds) (hChronicle : Worker.Chronicle settings w journal deeds)
    (hLetters : ∀ call ∈ journal, call.isFailedLetter = false) {o : Int} {m : Malformed}
    (hm : l.Undecodable o m) :
    ∃ n k, Tried settings.maxDeliver o m n k journal ∧ (c.coming = [] → k = n) := by
  have hDeeds : ∀ d ∈ deeds, ∀ call ∈ d.calls, call.isFailedLetter = false :=
    fun d hd call hCall => hLetters call (hChronicle.mem_journal hd hCall)
  obtain ⟨n, k, hDeliveries, hDone, hInTime, hAll, hLimit⟩ := h.rejections hm
  refine ⟨n, k, ⟨?_, ?_, hInTime, fun hPos => hLimit hPos hDeeds⟩, hAll⟩
  · rw [hChronicle.arrivals_eq, hDeliveries]
  · have hBatches : ∀ p ∈ allBatches deeds, p.handle.offset ≠ o :=
      fun p hp => hm.not_parcel (h.inStep.faithful.batches p hp)
    have hDealings := dealingsAt_flatMap_calls h.allows hDeeds hBatches
    rw [hDone, List.flatMap_map] at hDealings
    rw [← hDealings, dealingsAt, dealingsAt, ← filterMap_calls (fun _ => rfl),
      hChronicle.reading_eq (fun _ => rfl) fun _ _ => rfl]

end Followed

section Courses

open Worker Course

/-- In every course of a worker, whatever the source and the store do, a message is put aside only
if it holds no event and was handed out often enough, with its bytes and the reason, in the order in
which such messages came; without a limit none is. Over a log that takes all that is put aside, a
record without an event is given back at every hand-out below the limit and put aside at the last
one, and is never handed out again. -/
theorem put_aside_when_due :
    (∀ {α σ τ φ ψ : Type} (setup : Setup σ τ φ ψ) (act : α → σ → σ) (source : σ) (store : τ)
        (turns : List (Turn α τ)),
      let c := run setup act turns (start setup.settings source store)
      let due := (arrivals c.journal).filterMap (Delivery.due? setup.settings.maxDeliver)
      letters c.journal <+: due ∧
        (c.scene.worker.phase = .polling ∨ c.scene.worker.phase = .stopped →
          letters c.journal = due) ∧
        (setup.settings.maxDeliver = 0 → letters c.journal = [])) ∧
    ∀ {γ τ ψ : Type} (guard : Guard γ) (g : γ) (settings : WorkerSettings) (store : Store τ ψ)
        (t : τ) (records : Array (List UInt8)) (turns : List (Turn (List UInt8) τ)),
      let c := run ⟨settings, source.guarded guard, store⟩ (behind append) turns
        (start settings (g, { records }) t)
      (settings.maxDeliver ≠ 0 → ∀ call ∈ c.journal, call.isFailedLetter = false) →
      ∀ (o : Nat) (m : Malformed), c.scene.source.2.records[o]? = some m.raw →
        Event.ofBytes m.raw = .error m.reason →
        ∃ n k, Tried settings.maxDeliver o m n k c.journal ∧
          (c.scene.worker.phase = .polling ∨ c.scene.worker.phase = .stopped → k = n) := by
  have hRest : ∀ {φ ψ : Type} {w : Worker φ ψ}, w.phase = .polling ∨ w.phase = .stopped →
      w.custody.coming = [] := by
    rintro φ ψ w (hPhase | hPhase) <;> simp [custody, hPhase]
  constructor
  · intro α σ τ φ ψ setup act source store turns c due
    obtain ⟨deeds, hChronicle, hAccounted, hAllows⟩ := run_accounted setup act source store turns
    have hDue : due = letters c.journal ++ (c.scene.worker.custody.coming.filterMap
        Delivery.refusal?).filterMap fun r => r.2.letter? setup.settings.maxDeliver r.1 := by
      rw [hChronicle.letters_eq hAllows, ← List.filterMap_append, ← hAccounted.refusals,
        List.filterMap_filterMap, ← hChronicle.arrivals_eq]
      rfl
    refine ⟨hDue ▸ List.prefix_append _ _, fun hPhase => ?_, hChronicle.letters_unlimited hAllows⟩
    rw [hDue, hRest hPhase]
    simp
  · intro γ τ ψ guard g settings store t records turns c hTaken o m hRecord hReason
    obtain ⟨deeds, hChronicle, hFollowed⟩ : ∃ deeds,
        Chronicle settings c.scene.worker c.journal deeds ∧
          c.scene.source.2.Followed settings c.scene.worker.custody deeds := by
      refine run_from_start (I := fun c (s : γ × Log) deeds => s.2.Followed settings c deeds) ?_ ?_
        (Followed.start settings records) turns
      · exact fun h hMove => h.move hMove
      · exact fun record h => h.append record
    have hLetters : ∀ call ∈ c.journal, call.isFailedLetter = false := by
      by_cases hLimit : settings.maxDeliver = 0
      · exact noneFailed_of_letters_nil (hChronicle.letters_unlimited hFollowed.allows hLimit)
      · exact hTaken hLimit
    have hUndecodable : c.scene.source.2.Undecodable o m :=
      ⟨book_eq_some.mpr ⟨⟨rfl, Int.natCast_nonneg o⟩, hRecord⟩, hReason⟩
    obtain ⟨n, k, hTried, hAll⟩ := hFollowed.tried hChronicle hLetters hUndecodable
    exact ⟨n, k, hTried, fun hPhase => hAll (hRest hPhase)⟩

/-- A record without bytes; the acknowledgement after it was put aside fails. -/
def spentRecord : Course (Faults × Log) PlannedStore Waiting (Option StoreError) :=
  run ⟨{ batchSize := 1, maxDeliver := 2 }, source.guarded Faults.guard, PlannedStore.store⟩
    (behind append) (List.replicate 7 (.work 0))
    (start { batchSize := 1, maxDeliver := 2 } ({ failingAcks := [0] }, { records := #[[]] }) {})

theorem spent_record_put_aside :
    letters spentRecord.journal = [(⟨0, 0, 2⟩, [], "message has no payload")] ∧
    (∀ call ∈ spentRecord.journal, call.isFailedLetter = false) ∧
    ∃ n, Tried 2 0 ⟨[], .noPayload⟩ n n spentRecord.journal := by
  have hPolling : spentRecord.scene.worker.phase = .polling := by rfl
  have hTaken : ∀ call ∈ spentRecord.journal, call.isFailedLetter = false := by decide +kernel
  obtain ⟨n, k, hTried, hAll⟩ := put_aside_when_due.2 Faults.guard { failingAcks := [0] }
    { batchSize := 1, maxDeliver := 2 } PlannedStore.store {} #[[]] (List.replicate 7 (.work 0))
    (fun _ => hTaken) 0 ⟨[], .noPayload⟩ rfl rfl
  obtain rfl := hAll (.inl hPolling)
  exact ⟨by rfl, hTaken, k, hTried⟩

end Courses

end Log

end EventIngest
