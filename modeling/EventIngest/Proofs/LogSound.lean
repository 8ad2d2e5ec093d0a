import EventIngest.Proofs.Pending
import EventIngest.Source.Log
/-!
# Sound logs

What is known of a log at any time, and what each of its operations does to it. Everything between
the committed offset and the position was read since the last restart and is pending unless it was
acknowledged.
-/
namespace EventIngest.Log

open Ledger

def book (l : Log) : Book := fun h =>
  if h.partition = 0 ∧ 0 ≤ h.offset then l.records[h.offset.toNat]? else none

theorem book_eq_some {l : Log} {h : Handle} {raw : List UInt8} :
    l.book h = some raw ↔
      (h.partition = 0 ∧ 0 ≤ h.offset) ∧ l.records[h.offset.toNat]? = some raw := by
  rw [book]
  split
  · rename_i hPlace
    exact ⟨fun hRaw => ⟨hPlace, hRaw⟩, And.right⟩
  · rename_i hPlace
    exact ⟨nofun, fun hRaw => absurd hRaw.1 hPlace⟩

theorem book_eq {l l' : Log} (h : l'.records = l.records) : l'.book = l.book := by
  funext handle
  rw [book, book, h]

theorem book_append (l : Log) (record : List UInt8) : (l.append record).book.Extends l.book := by
  intro h raw hRaw
  obtain ⟨hPlace, hRecord⟩ := book_eq_some.mp hRaw
  have hLess := (Array.getElem?_eq_some_iff.mp hRecord).1
  refine book_eq_some.mpr ⟨hPlace, ?_⟩
  rw [append, Array.getElem?_push, if_neg (by omega), hRecord]

theorem partition_of_faithful {l : Log} {c : Custody Waiting} {deeds : List Deed}
    (h : c.Faithful l.book deeds) {d : Deed} (hd : d ∈ deeds) :
    ∀ handle ∈ d.handles, handle.partition = 0 := by
  intro handle hHandle
  obtain ⟨raw, hRaw⟩ := h.known hd hHandle
  exact (book_eq_some.mp hRaw).1.1

structure Sound (l : Log) : Prop where
  position : l.position ≤ l.records.size
  committed : l.committed ≤ l.position
  entries : ∀ e ∈ l.ledger.pending, e.partition = 0 ∧ (l.committed : Int) ≤ e.offset ∧
    e.offset < l.position ∧ e.payload = l.records[e.offset.toNat]?
  sorted : l.ledger.pending.Pairwise (·.offset < ·.offset)
  owned : (l.ledger.owned = [] ∧ l.ledger.pending = [] ∧ l.position = l.committed) ∨
    ∃ k, l.ledger.owned = [⟨0, some (l.position : Int), k⟩] ∧ ∀ f ∈ k, f = (l.committed : Int)

def pendingOffsets (l : Log) : List Int := l.ledger.pending.map (·.offset)

/-- How often a pending record has been handed out. -/
def times (l : Log) (o : Int) : Nat := timesIn l.ledger.pending o

/-- The lowest pending offset, or the position if nothing is pending. -/
def frontier (l : Log) : Nat := (l.ledger.pending.head?.map (·.offset.toNat)).getD l.position

namespace Sound

variable {l : Log}

theorem start (records : Array (List UInt8)) : Sound { records } :=
  ⟨Nat.zero_le _, Nat.le_refl _, List.forall_mem_nil _, .nil, .inl ⟨rfl, rfl, rfl⟩⟩

theorem append (h : l.Sound) (record : List UInt8) : (l.append record).Sound := by
  refine ⟨?_, h.committed, ?_, h.sorted, h.owned⟩
  · simp only [Log.append, Array.size_push]
    exact Nat.le_succ_of_le h.position
  · intro e he
    obtain ⟨hPartition, hCommitted, hPosition, hPayload⟩ := h.entries e he
    refine ⟨hPartition, hCommitted, hPosition, hPayload.trans ?_⟩
    have hSize := h.position
    simp only [Log.append]
    rw [Array.getElem?_push, if_neg (by omega)]

theorem restart (h : l.Sound) : l.restart.Sound :=
  ⟨Nat.le_trans h.committed h.position, Nat.le_refl _, List.forall_mem_nil _, .nil,
    .inl ⟨rfl, rfl, rfl⟩⟩

theorem aside (h : l.Sound) (aside : Array Int) : Sound { l with deadLettered := aside } :=
  ⟨h.position, h.committed, h.entries, h.sorted, h.owned⟩

theorem nodup (h : l.Sound) : l.pendingOffsets.Nodup := by
  rw [pendingOffsets, List.Nodup, List.pairwise_map]
  exact h.sorted.imp fun hLess => Int.ne_of_lt hLess

theorem times_eq_zero (h : l.Sound) {o : Int} (ho : (l.position : Int) ≤ o) : l.times o = 0 := by
  refine timesIn_eq_zero fun hIn => ?_
  obtain ⟨e, he, rfl⟩ := List.mem_map.mp hIn
  have hLess := (h.entries e he).2.2.1
  omega

theorem nodup_append (h : l.Sound) :
    (openOffsets l.ledger.pending ++ queuedOffsets l.ledger.pending).Nodup :=
  (offsets_perm l.ledger.pending).nodup_iff.mpr h.nodup

theorem isFrom_of_mem (h : l.Sound) {e : Entry} (he : e ∈ l.ledger.pending) (count : Nat) :
    (Delivery.ofMessage ⟨e.partition, e.offset, count⟩ e.payload).IsFrom l.book := by
  obtain ⟨hPartition, hCommitted, hPosition, hPayload⟩ := h.entries e he
  have hLess : e.offset.toNat < l.records.size := by
    have hSize := h.position
    omega
  have hRecord : l.records[e.offset.toNat]? = some l.records[e.offset.toNat] :=
    Array.getElem?_eq_getElem hLess
  rw [hPayload, hRecord]
  refine .ofMessage ?_
  simp only [book]
  rw [if_pos ⟨hPartition, by omega⟩, hRecord]

end Sound

/-- A fetch, or a part of one, hands out these deliveries and leaves this log. -/
structure HandsOut (l : Log) (ds : List Delivery) (l' : Log) : Prop where
  sound : l'.Sound
  records : l'.records = l.records
  committed : l'.committed = l.committed
  deadLettered : l'.deadLettered = l.deadLettered
  reads : l'.reads + l.position = l.reads + l'.position
  position : l.position ≤ l'.position
  frontier : l'.frontier = l.frontier
  times : ∀ o, ∃ k, l'.times o = l.times o + k ∧
    Delivery.handlesAt o ds = handOuts o (l.times o + 1) k
  opened : (openOffsets l'.ledger.pending).Perm
    (openOffsets l.ledger.pending ++ Delivery.offsets ds)
  queued : ∀ o ∈ queuedOffsets l'.ledger.pending, o ∈ queuedOffsets l.ledger.pending
  pending : ∀ o, o ∈ l'.pendingOffsets ↔
    o ∈ l.pendingOffsets ∨ (l.position : Int) ≤ o ∧ o < l'.position
  origin : ∀ o ∈ Delivery.offsets ds, o ∈ queuedOffsets l.ledger.pending ∨ (l.position : Int) ≤ o
  isFrom : ∀ d ∈ ds, d.IsFrom l.book

namespace HandsOut

variable {l l' l'' : Log} {ds more : List Delivery}

theorem refl (h : l.Sound) : l.HandsOut [] l :=
  ⟨h, rfl, rfl, rfl, rfl, Nat.le_refl _, rfl, fun _ => ⟨0, rfl, rfl⟩, by simp, fun _ ho => ho,
    fun o => by grind,
    List.forall_mem_nil _, List.forall_mem_nil _⟩

theorem trans (h : l.HandsOut ds l') (h' : l'.HandsOut more l'') : l.HandsOut (ds ++ more) l'' := by
  have hBook : l'.book = l.book := book_eq h.records
  refine ⟨h'.sound, h'.records.trans h.records, h'.committed.trans h.committed,
    h'.deadLettered.trans h.deadLettered, ?_, Nat.le_trans h.position h'.position,
    h'.frontier.trans h.frontier, ?_, ?_, fun o ho => h.queued o (h'.queued o ho), ?_, ?_, ?_⟩
  · have hReads := h.reads
    have hReads' := h'.reads
    omega
  · intro o
    obtain ⟨k, hTimes, hHandles⟩ := h.times o
    obtain ⟨k', hTimes', hHandles'⟩ := h'.times o
    refine ⟨k + k', by omega, ?_⟩
    rw [Delivery.handlesAt_append, hHandles, hHandles', hTimes, Nat.add_right_comm,
      handOuts_append]
  · refine h'.opened.trans ?_
    rw [Delivery.offsets_append, ← List.append_assoc]
    exact h.opened.append_right _
  · intro o
    have hPosition := h.position
    have hPosition' := h'.position
    rw [h'.pending, h.pending]
    grind
  · intro o ho
    rw [Delivery.offsets_append, List.mem_append] at ho
    rcases ho with ho | ho
    · exact h.origin o ho
    · rcases h'.origin o ho with hQueued | hPosition
      · exact .inl (h.queued o hQueued)
      · have hLe := h.position
        right
        omega
  · intro d hd
    rcases List.mem_append.mp hd with hd | hd
    · exact h.isFrom d hd
    · exact hBook ▸ h'.isFrom d hd

theorem redeliver (h : l.Sound) (max : Nat) :
    l.HandsOut (l.ledger.redeliver max).1 { l with ledger := (l.ledger.redeliver max).2 } := by
  have hOffsets : (handOutQueued max l.ledger.pending).2.map (·.offset) = l.pendingOffsets :=
    handOutQueued_map (fun _ => rfl) max l.ledger.pending
  have hQueued := handOutQueued_queued max l.ledger.pending
  have hKeys := handOutQueued_map (f := fun e => (e.partition, e.offset, e.payload))
    (fun _ => rfl) max l.ledger.pending
  refine ⟨⟨h.position, h.committed, ?_, ?_, ?_⟩, rfl, rfl, rfl, rfl, Nat.le_refl _, ?_,
    handOutQueued_times (fun e he => (h.entries e he).1) h.nodup,
    handOutQueued_open max l.ledger.pending, ?_, ?_, ?_, ?_⟩
  · intro e' he'
    have hKey := List.mem_map_of_mem (f := fun e : Entry => (e.partition, e.offset, e.payload)) he'
    simp only [Ledger.redeliver, hKeys] at hKey
    obtain ⟨e, he, hEq⟩ := List.mem_map.mp hKey
    simp only [Prod.mk.injEq] at hEq
    obtain ⟨hPartition, hOffset, hPayload⟩ := hEq
    rw [← hPartition, ← hOffset, ← hPayload]
    exact h.entries e he
  · have hSorted := List.pairwise_map.mpr h.sorted
    rw [← pendingOffsets, ← hOffsets, List.pairwise_map] at hSorted
    exact hSorted
  · rcases h.owned with ⟨hOwned, hPending, hPosition⟩ | hOwned
    · left
      exact ⟨hOwned, by simp [Ledger.redeliver, hPending, handOutQueued], hPosition⟩
    · exact .inr hOwned
  · have hHeads := congrArg (fun offsets => (offsets.head?.map Int.toNat).getD l.position) hOffsets
    simpa [Log.frontier, pendingOffsets, Ledger.redeliver, List.head?_map, Function.comp_def]
      using hHeads
  · intro o ho
    rw [← hQueued]
    exact List.mem_append_right _ ho
  · intro o
    rw [pendingOffsets]
    simp only [Ledger.redeliver, hOffsets]
    grind
  · intro o ho
    left
    rw [← hQueued]
    exact List.mem_append_left _ ho
  · intro d hd
    obtain ⟨e, he, rfl⟩ := mem_handOutQueued hd
    exact h.isFrom_of_mem he (e.deliveries + 1)

theorem advance (h : l.Sound) {record : List UInt8} (hRecord : l.records[l.position]? = some record) :
    l.HandsOut
      [.ofMessage ⟨0, l.position, (l.ledger.deliver 0 l.position (some record)).1⟩ (some record)]
      { l with
        position := l.position + 1
        reads := l.reads + 1
        ledger := (l.ledger.deliver 0 l.position (some record)).2 } := by
  have hBefore : ∀ e ∈ l.ledger.pending, e.partition = 0 ∧ e.offset < l.position :=
    fun e he => ⟨(h.entries e he).1, (h.entries e he).2.2.1⟩
  have hPending : (l.ledger.deliver 0 l.position (some record)).2.pending
      = l.ledger.pending ++ [⟨0, l.position, some record, 1, false⟩] :=
    enter_last hBefore (some record)
  have hLess : l.position < l.records.size := (Array.getElem?_eq_some_iff.mp hRecord).1
  have hFresh : (l.position : Int) ∉ l.ledger.pending.map (·.offset) := by
    intro hIn
    obtain ⟨e, he, hOffset⟩ := List.mem_map.mp hIn
    have hBelow := (hBefore e he).2
    omega
  have hTimes := timesIn_enter_last hFresh (some record)
  have hCount : (l.ledger.deliver 0 l.position (some record)).1 = 1 := by
    have hHere := hTimes l.position
    rw [← hPending, if_pos rfl] at hHere
    exact hHere
  refine ⟨⟨hLess, Nat.le_succ_of_le h.committed, ?_, ?_, ?_⟩, rfl, rfl, rfl, ?_,
    Nat.le_succ _, ?_, ?_, ?_, ?_, ?_, ?_, ?_⟩
  · intro e he
    simp only [hPending, List.mem_append, List.mem_singleton] at he
    rcases he with he | rfl
    · obtain ⟨hPartition, hCommitted, hPosition, hPayload⟩ := h.entries e he
      exact ⟨hPartition, hCommitted, by simp only; omega, hPayload⟩
    · have hCommitted := h.committed
      refine ⟨rfl, by simp only; omega, by simp only; omega, ?_⟩
      simp [hRecord]
  · simp only [hPending]
    rw [List.pairwise_append]
    refine ⟨h.sorted, List.pairwise_singleton _ _, ?_⟩
    intro e he last hLast
    obtain rfl := List.mem_singleton.mp hLast
    exact (hBefore e he).2
  · right
    rcases h.owned with ⟨hOwned, -⟩ | ⟨k, hOwned, hCommitted⟩
    · exact ⟨none, by simp [deliver, hOwned, alter, Progress.reach], nofun⟩
    · refine ⟨k, ?_, hCommitted⟩
      have hNext : max (l.position : Int) (l.position + 1) = l.position + 1 := by omega
      simp only [deliver, hOwned, alter, Progress.reach, ↓reduceIte, Option.map_some,
        Option.getD_some, hNext]
      rfl
  · simp only
    omega
  · simp only [Log.frontier, hPending]
    cases l.ledger.pending <;> simp
  · intro o
    simp only [Log.times, hPending, hTimes, hCount]
    by_cases ho : o = l.position
    · refine ⟨1, ?_, ?_⟩
      · rw [if_pos ho, ho, timesIn_eq_zero hFresh]
      · rw [ho, timesIn_eq_zero hFresh]
        simp [Delivery.handlesAt, Delivery.ofMessage, handOuts]
    · refine ⟨0, if_neg ho, ?_⟩
      simp [Delivery.handlesAt, Delivery.ofMessage, handOuts, Ne.symm ho]
  · simp only [hPending]
    simp [openOffsets, Delivery.offsets, Delivery.ofMessage]
  · simp only [hPending]
    simp [queuedOffsets]
  · intro o
    simp only [pendingOffsets, hPending, List.map_append, List.mem_append, List.map_cons,
      List.map_nil, List.mem_singleton]
    grind
  · intro o ho
    right
    obtain rfl := List.mem_singleton.mp ho
    exact Int.le_refl _
  · refine List.forall_mem_singleton.mpr (.ofMessage ?_)
    simp [book, hRecord]

theorem read (h : l.Sound) (max : Nat) : l.HandsOut (Log.read max l).1 (Log.read max l).2 := by
  induction max generalizing l with
  | zero => exact .refl h
  | succ max ih =>
    rw [Log.read]
    split
    · exact .refl h
    · rename_i record hRecord
      have hAdvance := advance h hRecord
      exact hAdvance.trans (ih hAdvance.sound)

/-- All that a fetch has brought when it answers or begins to wait. -/
theorem fetch (h : l.Sound) (max : Nat) (wait : Duration) :
    l.HandsOut (source.fetch l max wait).1.deliveries (source.fetch l max wait).2 := by
  have hAgain := redeliver h max
  have hFresh := hAgain.trans (read hAgain.sound (max - (l.ledger.redeliver max).1.length))
  simp only [source]
  split <;> exact hFresh

theorem resume (h : l.Sound) (call : Waiting) :
    ∃ fresh, (source.resume l call).1.deliveries = call.collected ++ fresh ∧
      l.HandsOut fresh (source.resume l call).2 :=
  ⟨_, rfl, read h (call.max - call.collected.length)⟩

end HandsOut

section Settling

def settle (l : Log) (acks naks : List Handle) : Log :=
  { l with ledger := { l.ledger with pending := giveBack naks (acknowledge acks l.ledger.pending) } }

theorem acknowledge_nil (es : List Entry) : acknowledge [] es = es :=
  List.filter_eq_self.mpr fun _ _ => rfl

theorem giveBack_nil (es : List Entry) : giveBack [] es = es := List.map_id es

theorem settle_nil (l : Log) : l.settle [] [] = l := by
  rw [settle, acknowledge_nil, giveBack_nil]

theorem ack_eq (l : Log) (h : Handle) : source.ack l h = (.ok (), l.settle [h] []) := by
  simp [source, settle, giveBack_nil, Ledger.ack, acknowledge, isSettled]

theorem nak_eq (l : Log) (h : Handle) : source.nak l h = (.ok (), l.settle [] [h]) := by
  simp [source, settle, acknowledge_nil, Ledger.nak, giveBack, isSettled]

theorem settle_acks (l : Log) (h : Handle) (hs : List Handle) :
    (l.settle [h] []).settle hs [] = l.settle (h :: hs) [] := by
  simp [settle, giveBack_nil, acknowledge, isSettled, List.filter_filter, Bool.and_comm]

theorem settle_naks (l : Log) (h : Handle) (hs : List Handle) :
    (l.settle [] [h]).settle [] hs = l.settle [] (h :: hs) := by
  have hPending : giveBack hs (giveBack [h] l.ledger.pending)
      = giveBack (h :: hs) l.ledger.pending := by
    rw [giveBack, giveBack, giveBack, List.map_map]
    refine List.map_congr_left fun e _ => ?_
    simp only [Function.comp_apply, isSettled, List.any_cons, List.any_nil, Bool.or_false]
    by_cases hAt : e.isAt h.partition h.offset = true
    · simp only [hAt, if_true, Bool.true_or]
      split <;> rfl
    · simp [hAt]
  simp only [settle, acknowledge_nil, hPending]

theorem Sound.settle {l : Log} (h : l.Sound) (acks naks : List Handle) :
    (l.settle acks naks).Sound := by
  have hSub : (acknowledge acks l.ledger.pending).Sublist l.ledger.pending := List.filter_sublist
  refine ⟨h.position, h.committed, ?_, ?_, ?_⟩
  · intro e' he'
    obtain ⟨e, he, rfl⟩ := List.mem_map.mp he'
    have hEntry := h.entries e (hSub.subset he)
    split <;> exact hEntry
  · have hOffsets : (giveBack naks (acknowledge acks l.ledger.pending)).map (·.offset)
        = (acknowledge acks l.ledger.pending).map (·.offset) :=
      giveBack_map (fun _ _ => rfl) naks _
    have hSorted := List.pairwise_map.mpr (h.sorted.sublist hSub)
    rw [← hOffsets, List.pairwise_map] at hSorted
    exact hSorted
  · rcases h.owned with ⟨hOwned, hPending, hPosition⟩ | hOwned
    · exact .inl ⟨hOwned, by simp [Log.settle, hPending, acknowledge, giveBack], hPosition⟩
    · exact .inr hOwned

section Members

variable {l : Log} (h : l.Sound) {acks naks : List Handle} (hAcks : ∀ h ∈ acks, h.partition = 0)
  (hNaks : ∀ h ∈ naks, h.partition = 0) {o : Int}

include hAcks in
theorem times_settle (ho : o ∉ acks.map (·.offset)) : (l.settle acks naks).times o = l.times o :=
  (timesIn_giveBack naks _ o).trans (timesIn_acknowledge hAcks ho)

include h

theorem Sound.kept_partition : ∀ e ∈ acknowledge acks l.ledger.pending, e.partition = 0 :=
  fun e he => (h.entries e (List.mem_filter.mp he).1).1

include hAcks

theorem Sound.mem_pending_settle :
    o ∈ (l.settle acks naks).pendingOffsets ↔
      o ∈ l.pendingOffsets ∧ o ∉ acks.map (·.offset) := by
  rw [pendingOffsets, Log.settle, giveBack_map (fun _ _ => rfl)]
  simp only [List.mem_map (f := fun e : Entry => e.offset), pendingOffsets,
    mem_acknowledge hAcks fun e he => (h.entries e he).1]
  constructor
  · rintro ⟨e, ⟨he, hOffset⟩, rfl⟩
    exact ⟨⟨e, he, rfl⟩, hOffset⟩
  · rintro ⟨⟨e, he, rfl⟩, hOffset⟩
    exact ⟨e, ⟨he, hOffset⟩, rfl⟩

include hNaks

theorem Sound.mem_open_settle :
    o ∈ openOffsets (l.settle acks naks).ledger.pending ↔
      (o ∈ openOffsets l.ledger.pending ∧ o ∉ acks.map (·.offset)) ∧
        o ∉ naks.map (·.offset) := by
  rw [← mem_openOffsets_acknowledge hAcks fun e he => (h.entries e he).1]
  exact mem_openOffsets_giveBack hNaks h.kept_partition

theorem Sound.mem_queued_settle (ho : o ∈ queuedOffsets (l.settle acks naks).ledger.pending) :
    o ∈ queuedOffsets l.ledger.pending ∨ o ∈ naks.map (·.offset) := by
  rcases (mem_queuedOffsets_giveBack hNaks h.kept_partition).mp ho with hQueued | ⟨-, hNak⟩
  · left
    exact ((mem_queuedOffsets_acknowledge hAcks fun e he => (h.entries e he).1).mp hQueued).1
  · exact .inr hNak

end Members

theorem Sound.committed_le_frontier {l : Log} (h : l.Sound) : l.committed ≤ l.frontier := by
  rw [frontier]
  cases hPending : l.ledger.pending with
  | nil => exact h.committed
  | cons e es =>
    obtain ⟨-, hCommitted, -⟩ := h.entries e (hPending ▸ List.mem_cons_self)
    simp only [List.head?_cons, Option.map_some, Option.getD_some]
    omega

theorem Sound.frontier_le {l : Log} (h : l.Sound) :
    l.frontier ≤ l.position ∧ ∀ o ∈ l.pendingOffsets, (l.frontier : Int) ≤ o := by
  rw [frontier, pendingOffsets]
  cases hPending : l.ledger.pending with
  | nil => exact ⟨Nat.le_refl _, List.forall_mem_nil _⟩
  | cons e es =>
    obtain ⟨-, hCommitted, hPosition, -⟩ := h.entries e (hPending ▸ List.mem_cons_self)
    have hSorted := h.sorted
    rw [hPending, List.pairwise_cons] at hSorted
    simp only [List.head?_cons, Option.map_some, Option.getD_some]
    refine ⟨by omega, ?_⟩
    intro o ho
    obtain ⟨e', he', rfl⟩ := List.mem_map.mp ho
    rcases List.mem_cons.mp he' with rfl | he'
    · omega
    · have hLess := hSorted.1 e' he'
      omega

theorem Sound.ledger_frontier {l : Log} (h : l.Sound) (k : Option Int) :
    l.ledger.frontier ⟨0, some (l.position : Int), k⟩ = some (l.frontier : Int) := by
  rw [Ledger.frontier, lowestPending, frontier]
  cases hPending : l.ledger.pending with
  | nil => rfl
  | cons e es =>
    obtain ⟨hPartition, hCommitted, -⟩ := h.entries e (hPending ▸ List.mem_cons_self)
    simp only [List.find?_cons, hPartition, beq_self_eq_true, Option.map_some, Option.some_or,
      List.head?_cons, Option.getD_some, Option.some.injEq]
    omega

/-- A commit makes the frontier the committed offset. -/
theorem Sound.commit {l : Log} (h : l.Sound) :
    let l' := (source.commit l).2
    l'.Sound ∧ l'.committed = l.frontier ∧ l'.records = l.records ∧ l'.position = l.position ∧
      l'.reads = l.reads ∧ l'.ledger.pending = l.ledger.pending := by
  have hCommitted := h.committed_le_frontier
  have hFrontier := h.frontier_le
  rcases h.owned with ⟨hOwned, hPending, hPosition⟩ | ⟨k, hOwned, hLast⟩
  · -- Nothing was read since the last restart, so there is no partition to commit.
    have hSame : (source.commit l).2 = l := by
      obtain ⟨records, position, committed, reads, ⟨pending, owned⟩, deadLettered⟩ := l
      obtain rfl : owned = [] := hOwned
      rfl
    have hAll : l.frontier = l.position := by rw [frontier, hPending]; rfl
    rw [hSame]
    exact ⟨h, by omega, rfl, rfl, rfl, rfl⟩
  · have hMoved : l.ledger.moved? ⟨0, some (l.position : Int), k⟩
        = if k = some (l.frontier : Int) then none else some (l.frontier : Int) := by
      rw [moved?, h.ledger_frontier]
      cases k with
      | none => rfl
      | some last =>
        obtain rfl := hLast last rfl
        simp only [Option.filter, Option.map_some, Option.getD_some, decide_eq_true_eq,
          Option.some.injEq]
        split
        · rw [if_neg (by omega)]
        · rw [if_pos (by omega)]
    have hCommit : (source.commit l).2 = { l with
        committed := l.frontier
        ledger := { l.ledger with
          owned := [⟨0, some (l.position : Int), some (l.frontier : Int)⟩] } } := by
      by_cases hLastMove : k = some (l.frontier : Int)
      · have hSame : l.committed = l.frontier := by
          have hEq := hLast _ hLastMove
          omega
        rw [if_pos hLastMove, hLastMove] at hMoved
        simp [source, Ledger.commit, hOwned, hLastMove, hMoved, hSame]
      · rw [if_neg hLastMove] at hMoved
        simp [source, Ledger.commit, hOwned, hMoved]
    rw [hCommit]
    refine ⟨⟨h.position, hFrontier.1, ?_, h.sorted, .inr ⟨_, rfl, ?_⟩⟩, rfl, rfl, rfl, rfl, rfl⟩
    · intro e he
      obtain ⟨hPartition, -, hPosition, hPayload⟩ := h.entries e he
      exact ⟨hPartition, hFrontier.2 e.offset (List.mem_map_of_mem he), hPosition, hPayload⟩
    · intro f hf
      exact (Option.some.inj hf).symm

end Settling

end EventIngest.Log
