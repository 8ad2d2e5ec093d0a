import EventIngest.Proofs.LedgerAccounts
import Mathlib.Algebra.GroupWithZero.Nat
/-!
# Redeliveries in slices

Queued messages are handed out again by limits that follow one another: each fetch asks for as many
as it has room for. Where the cuts fall makes no difference. The slices together are what one limit,
the sum of theirs, would have handed out, and they leave the same ledger.
-/
namespace EventIngest.Ledger

section HandingOut

variable {e : Entry} {es : List Entry}

@[simp] theorem handOutQueued_zero (es : List Entry) : handOutQueued 0 es = ([], es) := by
  cases es with
  | nil => rfl
  | cons e es => rfl

theorem handOutQueued_cons_open (h : e.queued = false) (n : Nat) :
    handOutQueued n (e :: es) = ((handOutQueued n es).1, e :: (handOutQueued n es).2) := by
  cases n with
  | zero => simp
  | succ n => simp [handOutQueued, h]

theorem handOutQueued_cons_queued (h : e.queued = true) (n : Nat) :
    handOutQueued (n + 1) (e :: es)
      = (e.handOut.delivery :: (handOutQueued n es).1, e.handOut :: (handOutQueued n es).2) := by
  simp [handOutQueued, h]

theorem handOutQueued_add (n m : Nat) (es : List Entry) :
    handOutQueued (n + m) es
      = ((handOutQueued n es).1 ++ (handOutQueued m (handOutQueued n es).2).1,
          (handOutQueued m (handOutQueued n es).2).2) := by
  induction es generalizing n with
  | nil =>
    cases n with
    | zero => simp
    | succ n => rfl
  | cons e es ih =>
    cases hQueued : e.queued with
    | false => simp only [handOutQueued_cons_open hQueued, ih n]
    | true =>
      cases n with
      | zero => simp
      | succ n =>
        -- What the first slice handed out is open, so the second one passes over it.
        have hOpen : e.handOut.queued = false := rfl
        rw [Nat.add_right_comm, handOutQueued_cons_queued hQueued,
          handOutQueued_cons_queued hQueued, handOutQueued_cons_open hOpen, ih n]
        rfl

theorem handOutQueued_min (n : Nat) (es : List Entry) :
    handOutQueued n es = handOutQueued (min n (queuedPlaces es).length) es := by
  induction es generalizing n with
  | nil =>
    cases n with
    | zero => rfl
    | succ n => rfl
  | cons e es ih =>
    cases hQueued : e.queued with
    | false =>
      have hQueue : queuedPlaces (e :: es) = queuedPlaces es := by simp [queuedPlaces, hQueued]
      rw [hQueue, handOutQueued_cons_open hQueued, handOutQueued_cons_open hQueued, ← ih n]
    | true =>
      have hQueue : (queuedPlaces (e :: es)).length = (queuedPlaces es).length + 1 := by
        simp [queuedPlaces, places, hQueued]
      cases n with
      | zero => simp
      | succ n =>
        rw [hQueue, Nat.succ_min_succ, handOutQueued_cons_queued hQueued,
          handOutQueued_cons_queued hQueued, ← ih n]

end HandingOut

variable (l : Ledger)

theorem redeliver_add (a b : Nat) :
    l.redeliver (a + b)
      = ((l.redeliver a).1 ++ ((l.redeliver a).2.redeliver b).1,
          ((l.redeliver a).2.redeliver b).2) := by
  simp only [redeliver, handOutQueued_add a b]

theorem redeliver_min (max : Nat) :
    l.redeliver max = l.redeliver (min max (queuedPlaces l.pending).length) := by
  rw [redeliver, handOutQueued_min, redeliver]

/-- Hands out queued messages by one limit after another. -/
def redeliverBy (l : Ledger) : List Nat → List Delivery × Ledger
  | [] => ([], l)
  | max :: limits =>
    let (ds, l) := l.redeliver max
    let (more, l) := redeliverBy l limits
    (ds ++ more, l)

theorem redeliverBy_eq (limits : List Nat) : l.redeliverBy limits = l.redeliver limits.sum := by
  induction limits generalizing l with
  | nil => simp [redeliverBy, redeliver]
  | cons max limits ih =>
    rw [List.sum_cons, redeliver_add, ← ih]
    rfl

/-- After any operations on a ledger, redeliveries by two limits are what one redelivery by their
sum would be, and leave the same ledger; so are redeliveries by any number of limits. They hand out
the queued places from the first one on, each once and in order, with one more than the hand-outs
that the history counts, until the limits or the queue are used up. -/
theorem slices_same_as_one (ops : List Op) :
    let t := Trace.run ops {}
    (∀ a b,
      (t.ledger.redeliver a).1 ++ ((t.ledger.redeliver a).2.redeliver b).1
        = (t.ledger.redeliver (a + b)).1 ∧
      ((t.ledger.redeliver a).2.redeliver b).2 = (t.ledger.redeliver (a + b)).2) ∧
    (∀ limits, t.ledger.redeliverBy limits = t.ledger.redeliver limits.sum) ∧
    ∃ queue : List (Int × Int),
      queue.Pairwise Precedes ∧ (∀ p o, (p, o) ∈ queue ↔ t.history.isQueued p o = true) ∧
      ∀ limits,
        (t.ledger.redeliverBy limits).1.map Delivery.place = queue.take limits.sum ∧
        t.ledger.redeliverBy limits = t.ledger.redeliver (min limits.sum queue.length) ∧
        ∀ d ∈ (t.ledger.redeliverBy limits).1, ∃ p o payload,
          t.history.opening? p o = some payload ∧
            d = .ofMessage ⟨p, o, 1 + t.history.timesHandedOut p o⟩ payload := by
  intro t
  have h : Accounts t := Accounts.start.run ops
  refine ⟨fun a b => ?_, t.ledger.redeliverBy_eq, queuedPlaces t.ledger.pending,
    h.ordered.pending.queuedPlaces_sorted, fun p o => ?_, fun limits => ?_⟩
  · rw [redeliver_add]
    exact ⟨rfl, rfl⟩
  · rw [h.ordered.pending.mem_queuedPlaces, (h.agrees p o).queued]
    rfl
  · rw [redeliverBy_eq]
    exact ⟨places_handOutQueued _ _, redeliver_min _ _, fun d => h.redelivered⟩

/-- Three messages of two partitions that were given back: cuts at nothing, within a partition,
where it ends, and beyond the queue. -/
theorem three_given_back_in_slices :
    let t := Trace.run [.deliver 1 4 none, .deliver 0 7 (some [123]), .deliver 0 9 none,
      .nak 1 4, .nak 0 9, .nak 0 7] {}
    (t.ledger.redeliverBy [0, 1, 1, 5]).1.map Delivery.handle = [⟨0, 7, 2⟩, ⟨0, 9, 2⟩, ⟨1, 4, 2⟩] ∧
      t.ledger.redeliverBy [0, 1, 1, 5] = t.ledger.redeliver 7 ∧
      t.ledger.redeliverBy [2, 1] = t.ledger.redeliver 3 :=
  ⟨by rfl, (slices_same_as_one _).2.1 [0, 1, 1, 5], (slices_same_as_one _).2.1 [2, 1]⟩

end EventIngest.Ledger
