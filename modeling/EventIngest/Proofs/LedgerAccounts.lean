import EventIngest.Proofs.CommitExact
import Mathlib.Data.List.Nodup
/-!
# The accounts of a ledger

A history tells for each offset how often it was handed out since it became pending, with which
payload that began, and whether it waits to be handed out again. The entries of a ledger agree with
its history on all three. So the counts that are reported are those of the history, a redelivery is
the message as it was first read, and what is handed out again is exactly what was given back.
-/
namespace EventIngest.Ledger

namespace History

/-- After this operation the offset is not pending. -/
def ends (p o : Int) : Op → Bool
  | .ack q r => q == p && r == o
  | .revoke q => q == p
  | _ => false

/-- The part of a history since the offset was acknowledged or its partition was revoked. -/
def sinceEnd (p o : Int) (h : History) : History := h.takeWhile fun e => !ends p o e.1

def read? (p o : Int) : Op → Option (Option (List UInt8))
  | .deliver q r payload => if q = p ∧ r = o then some payload else none
  | _ => none

/-- The payload with which the offset became pending. -/
def opening? (p o : Int) (h : History) : Option (Option (List UInt8)) :=
  (h.sinceEnd p o).reverse.findSome? fun e => read? p o e.1

def handedOut : Op × Reply → List (Int × Int)
  | (.deliver p o _, _) => [(p, o)]
  | (.redeliver _, .deliveries ds) => ds.map Delivery.place
  | _ => []

def timesHandedOut (p o : Int) (h : History) : Nat :=
  ((h.sinceEnd p o).flatMap handedOut).count (p, o)

def isGivenBack (p o : Int) : Op × Reply → Bool
  | (.nak q r, .wasPending known) => known && q == p && r == o
  | _ => false

/-- The offset was given back, and was not handed out, acknowledged or revoked after that. -/
def isQueued (p o : Int) (h : History) : Bool :=
  ((h.sinceEnd p o).takeWhile fun e => !(handedOut e).contains (p, o)).any (isGivenBack p o)

section Cons

variable {p o : Int} {op : Op} {reply : Reply} {h : History}

theorem sinceEnd_cons :
    sinceEnd p o ((op, reply) :: h) = if ends p o op then [] else (op, reply) :: h.sinceEnd p o := by
  rw [sinceEnd, List.takeWhile_cons]
  cases ends p o op <;> rfl

variable (hStays : ends p o op = false)
include hStays

theorem opening?_cons :
    opening? p o ((op, reply) :: h) = (h.opening? p o).or (read? p o op) := by
  rw [opening?, sinceEnd_cons, hStays, if_neg Bool.false_ne_true, List.reverse_cons,
    List.findSome?_append]
  simp [opening?]

theorem timesHandedOut_cons :
    timesHandedOut p o ((op, reply) :: h)
      = (handedOut (op, reply)).count (p, o) + h.timesHandedOut p o := by
  rw [timesHandedOut, sinceEnd_cons, hStays, if_neg Bool.false_ne_true, List.flatMap_cons,
    List.count_append]
  rfl

theorem isQueued_cons :
    isQueued p o ((op, reply) :: h)
      = (!(handedOut (op, reply)).contains (p, o) &&
          (isGivenBack p o (op, reply) || h.isQueued p o)) := by
  rw [isQueued, sinceEnd_cons, hStays, if_neg Bool.false_ne_true, List.takeWhile_cons]
  cases (handedOut (op, reply)).contains (p, o) <;> rfl

end Cons

/-- The entry that was found for an offset, if one was, is what the history tells of it. -/
structure AgreesAt (p o : Int) (h : History) (found : Option Entry) : Prop where
  opening : h.opening? p o = found.map (·.payload)
  times : h.timesHandedOut p o = (found.map (·.deliveries)).getD 0
  queued : h.isQueued p o = found.any (·.queued)

namespace AgreesAt

variable {p o : Int} {op : Op} {reply : Reply} {h : History} {found : Option Entry}

theorem ended (hEnds : ends p o op = true) : AgreesAt p o ((op, reply) :: h) none := by
  have hNone : sinceEnd p o ((op, reply) :: h) = [] := by rw [sinceEnd_cons, if_pos hEnds]
  refine ⟨?_, ?_, ?_⟩
  · rw [opening?, hNone]
    rfl
  · rw [timesHandedOut, hNone]
    rfl
  · rw [isQueued, hNone]
    rfl

variable (hAgrees : AgreesAt p o h found)
include hAgrees

theorem rest (hStays : ends p o op = false) (hRead : read? p o op = none)
    (hOut : (p, o) ∉ handedOut (op, reply)) (hBack : isGivenBack p o (op, reply) = false) :
    AgreesAt p o ((op, reply) :: h) found := by
  refine ⟨?_, ?_, ?_⟩
  · rw [opening?_cons hStays, hRead, Option.or_none, hAgrees.opening]
  · rw [timesHandedOut_cons hStays, List.count_eq_zero.mpr hOut, Nat.zero_add, hAgrees.times]
  · have hContains : (handedOut (op, reply)).contains (p, o) = false := by simpa using hOut
    rw [isQueued_cons hStays, hContains, hBack, hAgrees.queued]
    rfl

theorem deliver (payload : Option (List UInt8)) :
    AgreesAt p o ((.deliver p o payload, reply) :: h)
      (some ((found.map Entry.handOut).getD ⟨p, o, payload, 1, false⟩)) := by
  refine ⟨?_, ?_, ?_⟩
  · rw [opening?_cons rfl, hAgrees.opening, read?, if_pos ⟨rfl, rfl⟩]
    cases found <;> rfl
  · rw [timesHandedOut_cons rfl, hAgrees.times, handedOut, List.count_singleton_self]
    cases found with
    | none => rfl
    | some e => exact Nat.add_comm 1 e.deliveries
  · rw [isQueued_cons rfl, handedOut, List.contains_cons, beq_self_eq_true]
    cases found <;> rfl

theorem nak :
    AgreesAt p o ((.nak p o, .wasPending found.isSome) :: h)
      (found.map fun e => { e with queued := true }) := by
  refine ⟨?_, ?_, ?_⟩
  · rw [opening?_cons rfl, hAgrees.opening]
    cases found <;> rfl
  · rw [timesHandedOut_cons rfl, hAgrees.times]
    cases found <;> simp [handedOut]
  · rw [isQueued_cons rfl, hAgrees.queued]
    cases found <;> simp [handedOut, isGivenBack]

theorem redeliver {max : Nat} {ds : List Delivery} (hOnce : (ds.map Delivery.place).count (p, o) = 1)
    (hFound : found.isSome = true) :
    AgreesAt p o ((.redeliver max, .deliveries ds) :: h) (found.map Entry.handOut) := by
  obtain ⟨e, rfl⟩ := Option.isSome_iff_exists.mp hFound
  refine ⟨?_, ?_, ?_⟩
  · rw [opening?_cons rfl, hAgrees.opening]
    rfl
  · rw [timesHandedOut_cons rfl, hAgrees.times, handedOut, hOnce]
    exact Nat.add_comm 1 e.deliveries
  · have hIn : (p, o) ∈ ds.map Delivery.place := List.count_pos_iff.mp (by omega)
    have hContains : (ds.map Delivery.place).contains (p, o) = true := List.contains_iff_mem.mpr hIn
    rw [isQueued_cons rfl, handedOut, hContains]
    rfl

end AgreesAt

end History

open History

structure Accounts (t : Trace) : Prop where
  ordered : t.ledger.Ordered
  agrees : ∀ p o, AgreesAt p o t.history (t.ledger.find? p o)

namespace Accounts

variable {t : Trace}

theorem start : Accounts {} := ⟨⟨.nil, .nil⟩, fun _ _ => ⟨rfl, rfl, rfl⟩⟩

theorem quiet (h : Accounts t) {op : Op} {reply : Reply} {l : Ledger} (hOrdered : l.Ordered)
    (hPending : l.pending = t.ledger.pending) (hStays : ∀ p o, ends p o op = false)
    (hRead : ∀ p o, read? p o op = none) (hOut : handedOut (op, reply) = [])
    (hBack : ∀ p o, isGivenBack p o (op, reply) = false) :
    Accounts ⟨l, (op, reply) :: t.history⟩ := by
  refine ⟨hOrdered, fun p o => ?_⟩
  have hFound : l.find? p o = t.ledger.find? p o := by rw [find?, hPending, find?]
  change AgreesAt p o _ (l.find? p o)
  rw [hFound]
  exact (h.agrees p o).rest (hStays p o) (hRead p o) (by simp [hOut]) (hBack p o)

theorem revoke (h : Accounts t) (p : Int) : Accounts (t.step (.revoke p)) := by
  refine ⟨h.ordered.revoke p, fun q r => ?_⟩
  change AgreesAt q r _ ((t.ledger.revoke p).2.find? q r)
  rw [find?_revoke]
  split
  · rename_i hHere
    exact .ended (by simp [ends, hHere])
  · rename_i hOther
    have hStays : ends q r (.revoke p) = false := beq_eq_false_iff_ne.mpr (Ne.symm hOther)
    exact (h.agrees q r).rest hStays rfl (by simp [handedOut]) rfl

theorem deliver (h : Accounts t) (p o : Int) (payload : Option (List UInt8)) :
    Accounts (t.step (.deliver p o payload)) := by
  refine ⟨h.ordered.deliver p o payload, fun q r => ?_⟩
  change AgreesAt q r _ ((t.ledger.deliver p o payload).2.find? q r)
  rw [h.ordered.find?_deliver]
  split
  · rename_i hHere
    obtain ⟨rfl, rfl⟩ := hHere
    exact (h.agrees q r).deliver payload
  · rename_i hOther
    have hRead : read? q r (.deliver p o payload) = none := if_neg (by omega)
    refine (h.agrees q r).rest rfl hRead ?_ rfl
    rw [handedOut, List.mem_singleton, Prod.mk.injEq]
    exact hOther

theorem ack (h : Accounts t) (p o : Int) : Accounts (t.step (.ack p o)) := by
  refine ⟨h.ordered.ack p o, fun q r => ?_⟩
  change AgreesAt q r _ ((t.ledger.ack p o).2.find? q r)
  rw [find?_ack]
  split
  · rename_i hHere
    exact .ended (by simp [ends, hHere])
  · rename_i hOther
    have hStays : ends q r (.ack p o) = false := by
      simp only [ends, Bool.and_eq_false_iff, beq_eq_false_iff_ne]
      omega
    exact (h.agrees q r).rest hStays rfl (by simp [handedOut]) rfl

theorem nak (h : Accounts t) (p o : Int) : Accounts (t.step (.nak p o)) := by
  refine ⟨h.ordered.nak p o, fun q r => ?_⟩
  change AgreesAt q r _ ((t.ledger.nak p o).2.find? q r)
  rw [find?_nak]
  by_cases hHere : q = p ∧ r = o
  · obtain ⟨rfl, rfl⟩ := hHere
    simp only [and_self, if_true]
    exact (h.agrees q r).nak
  · simp only [if_neg hHere, Option.map_id']
    have hBack : isGivenBack q r (.nak p o, .wasPending (t.ledger.nak p o).1) = false := by
      simp only [isGivenBack, Bool.and_eq_false_iff, beq_eq_false_iff_ne]
      omega
    exact (h.agrees q r).rest rfl rfl (by simp [handedOut]) hBack

theorem redeliver (h : Accounts t) (max : Nat) : Accounts (t.step (.redeliver max)) := by
  refine ⟨h.ordered.redeliver max, fun p o => ?_⟩
  have hPlaces : (t.ledger.redeliver max).1.map Delivery.place
      = (queuedPlaces t.ledger.pending).take max := places_handOutQueued max t.ledger.pending
  change AgreesAt p o ((_, .deliveries (t.ledger.redeliver max).1) :: _)
    ((t.ledger.redeliver max).2.find? p o)
  rw [h.ordered.find?_redeliver]
  by_cases hIn : (p, o) ∈ (queuedPlaces t.ledger.pending).take max
  -- A place is queued at most once, so that the history counts it once as well.
  · have hNodup : ((queuedPlaces t.ledger.pending).take max).Nodup :=
      h.ordered.pending.queuedPlaces_nodup.sublist (List.take_sublist _ _)
    have hQueued := h.ordered.pending.mem_queuedPlaces.mp (List.mem_of_mem_take hIn)
    obtain ⟨e, he, -⟩ := (Option.any_eq_true _ _).mp hQueued
    simp only [if_pos hIn]
    refine (h.agrees p o).redeliver ?_ (Option.isSome_iff_exists.mpr ⟨e, he⟩)
    rw [hPlaces]
    exact List.count_eq_one_of_mem hNodup hIn
  · simp only [if_neg hIn, Option.map_id']
    refine (h.agrees p o).rest rfl rfl ?_ rfl
    rwa [handedOut, hPlaces]

theorem step (h : Accounts t) (op : Op) : Accounts (t.step op) := by
  cases op with
  | assign p =>
    exact h.quiet (h.ordered.assign p) rfl (fun _ _ => rfl) (fun _ _ => rfl) rfl fun _ _ => rfl
  | revoke p => exact h.revoke p
  | deliver p o payload => exact h.deliver p o payload
  | ack p o => exact h.ack p o
  | nak p o => exact h.nak p o
  | redeliver max => exact h.redeliver max
  | commit => exact h.quiet h.ordered.commit rfl (fun _ _ => rfl) (fun _ _ => rfl) rfl fun _ _ => rfl

theorem run (h : Accounts t) (ops : List Op) : Accounts (t.run ops) :=
  Trace.run_keeps (fun _ op ht => ht.step op) h ops

theorem deliver_fst (h : Accounts t) (p o : Int) (payload : Option (List UInt8)) :
    (t.ledger.deliver p o payload).1 = 1 + t.history.timesHandedOut p o := by
  have hFound := h.ordered.find?_deliver (p := p) (o := o) (q := p) (r := o) payload
  rw [if_pos ⟨rfl, rfl⟩] at hFound
  have hCount : (t.ledger.deliver p o payload).1
      = (((t.ledger.deliver p o payload).2.find? p o).map (·.deliveries)).getD 0 := rfl
  rw [hCount, hFound, (h.agrees p o).times]
  cases t.ledger.find? p o with
  | none => rfl
  | some e => exact Nat.add_comm e.deliveries 1

/-- What is handed out again is the message with which the offset became pending. -/
theorem redelivered (h : Accounts t) {max : Nat} {d : Delivery}
    (hd : d ∈ (t.ledger.redeliver max).1) :
    ∃ p o payload, t.history.opening? p o = some payload ∧
      d = .ofMessage ⟨p, o, 1 + t.history.timesHandedOut p o⟩ payload := by
  rw [redeliver_fst] at hd
  obtain ⟨e, he, rfl⟩ := List.mem_map.mp hd
  have hPending : e ∈ t.ledger.pending := (List.mem_filter.mp (List.mem_of_mem_take he)).1
  have hFound : t.ledger.find? e.partition e.offset = some e :=
    h.ordered.pending.find?_eq_some.mpr ⟨hPending, rfl⟩
  obtain ⟨hOpening, hTimes, -⟩ := hFound ▸ h.agrees e.partition e.offset
  refine ⟨e.partition, e.offset, e.payload, hOpening, ?_⟩
  rw [hTimes, Nat.add_comm]
  rfl

theorem isPending_eq (h : Accounts t) (p o : Int) :
    t.ledger.isPending p o = (t.history.opening? p o).isSome := by
  rw [(h.agrees p o).opening, Option.isSome_map, isPending]

end Accounts

/-- What the ledger reports of hand-outs agrees with its history. -/
structure Trace.Accounted (t : Trace) : Prop where
  /-- An offset is pending from the first time that it is read after its end. -/
  opening : ∀ p o, (t.history.opening? p o).isSome = true ↔ t.history.Unacked p o
  unopened : ∀ p o, t.history.opening? p o = none → t.history.timesHandedOut p o = 0
  delivered : ∀ p o payload,
    (t.ledger.deliver p o payload).1 = 1 + t.history.timesHandedOut p o
  redelivered : ∀ max, ∀ d ∈ (t.ledger.redeliver max).1, ∃ p o payload,
    t.history.opening? p o = some payload ∧
      d = .ofMessage ⟨p, o, 1 + t.history.timesHandedOut p o⟩ payload
  ack : ∀ p o, (t.ledger.ack p o).1 = true ↔ t.history.Unacked p o
  nak : ∀ p o, (t.ledger.nak p o).1 = true ↔ t.history.Unacked p o
  /-- The queued places, each once and in order, of which a redelivery takes the first ones. -/
  queue : ∃ queue : List (Int × Int),
    queue.Pairwise Precedes ∧ (∀ p o, (p, o) ∈ queue ↔ t.history.isQueued p o = true) ∧
    ∀ max, (t.ledger.redeliver max).1.map Delivery.place = queue.take max
  /-- A redelivery settles nothing and moves no frontier. -/
  kept : ∀ max, (∀ p o, (t.ledger.redeliver max).2.isPending p o = t.ledger.isPending p o) ∧
    (t.ledger.redeliver max).2.owned = t.ledger.owned ∧
    ∀ a, (t.ledger.redeliver max).2.frontier a = t.ledger.frontier a

/-- After any operations on a ledger, each hand-out reports one more than the hand-outs of its offset
since that became pending, and a redelivery is the message that was read then. Exactly what was given
back since its last hand-out is handed out again, once and in order. -/
theorem hand_outs_are_accounted (ops : List Op) : (Trace.run ops {}).Accounted := by
  have hTracks : Tracks (Trace.run ops {}) := Tracks.start.run ops
  have h : Accounts (Trace.run ops {}) := Accounts.start.run ops
  generalize Trace.run ops {} = t at hTracks h
  have hPending : ∀ p o, t.ledger.isPending p o = true ↔ t.history.Unacked p o :=
    fun p o => isPending_iff.trans (hTracks.pending p o)
  refine ⟨?_, ?_, h.deliver_fst, fun max d => h.redelivered, hPending, hPending, ?_, fun max => ?_⟩
  · intro p o
    rw [← h.isPending_eq, hPending]
  · intro p o hNone
    have hFound : t.ledger.find? p o = none := by
      rwa [(h.agrees p o).opening, Option.map_eq_none_iff] at hNone
    rw [(h.agrees p o).times, hFound]
    rfl
  · refine ⟨queuedPlaces t.ledger.pending, h.ordered.pending.queuedPlaces_sorted, fun p o => ?_,
      fun max => places_handOutQueued max t.ledger.pending⟩
    rw [h.ordered.pending.mem_queuedPlaces, (h.agrees p o).queued]
    rfl
  · refine ⟨fun p o => ?_, rfl, fun a => ?_⟩
    · rw [isPending, h.ordered.find?_redeliver, Option.isSome_map, isPending]
    · rw [frontier, lowestPending_eq, Ordered.places_redeliver, ← lowestPending_eq, frontier]

/-- An offset that was given back twice is handed out again once, and then waits for another time. -/
theorem given_back_twice_accounted :
    let t := Trace.run
      [.deliver 0 3 (some [123]), .nak 0 3, .nak 0 3, .redeliver 5, .redeliver 5, .nak 0 3] {}
    t.history.opening? 0 3 = some (some [123]) ∧ t.history.timesHandedOut 0 3 = 2 ∧
      t.history.isQueued 0 3 = true ∧ t.Accounted :=
  ⟨by rfl, by rfl, by rfl, hand_outs_are_accounted _⟩

end EventIngest.Ledger
