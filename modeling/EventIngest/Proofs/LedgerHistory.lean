import EventIngest.Ledger
import Mathlib.Order.Bounds.Defs
/-!
# Histories of a ledger

A history tells what was asked of a ledger and what it replied, the newest entry first. What counts
for a partition is the part since it was last revoked.
-/
namespace EventIngest.Ledger

inductive Op where
  | assign (partition : Int)
  | revoke (partition : Int)
  | deliver (partition offset : Int) (payload : Option (List UInt8))
  | ack (partition offset : Int)
  | nak (partition offset : Int)
  | redeliver (max : Nat)
  | commit
  deriving DecidableEq

inductive Reply where
  | done
  | due (frontier : Option Int)
  | count (n : Nat)
  | wasPending (known : Bool)
  | deliveries (ds : List Delivery)
  | frontiers (fs : List (Int × Int))

def apply (l : Ledger) : Op → Reply × Ledger
  | .assign p => (.done, l.assign p)
  | .revoke p => (.due (l.revoke p).1, (l.revoke p).2)
  | .deliver p o payload => (.count (l.deliver p o payload).1, (l.deliver p o payload).2)
  | .ack p o => (.wasPending (l.ack p o).1, (l.ack p o).2)
  | .nak p o => (.wasPending (l.nak p o).1, (l.nak p o).2)
  | .redeliver max => (.deliveries (l.redeliver max).1, (l.redeliver max).2)
  | .commit => (.frontiers l.commit.1, l.commit.2)

abbrev History := List (Op × Reply)

structure Trace where
  ledger : Ledger := {}
  history : History := []

namespace Trace

def step (t : Trace) (op : Op) : Trace :=
  ⟨(t.ledger.apply op).2, (op, (t.ledger.apply op).1) :: t.history⟩

def run (ops : List Op) (t : Trace) : Trace := ops.foldl step t

/-- What every operation keeps holds after every run. -/
theorem run_keeps {P : Trace → Prop} (hStep : ∀ t op, P t → P (t.step op)) {t : Trace} (h : P t)
    (ops : List Op) : P (t.run ops) := by
  induction ops generalizing t with
  | nil => exact h
  | cons op ops ih => exact ih (hStep t op h)

end Trace

namespace History

/-- The part of a history since a partition was revoked. -/
def since (p : Int) (h : History) : History := h.takeWhile fun e => e.1 != .revoke p

/-- The offset was read since the partition was revoked. -/
def Delivered (p : Int) (h : History) (o : Int) : Prop :=
  ∃ payload reply, (.deliver p o payload, reply) ∈ h.since p

/-- The offset was read since the partition was revoked, and was not acknowledged after that. -/
def Unacked (p : Int) (h : History) (o : Int) : Prop :=
  ∃ later earlier payload reply,
    h.since p = later ++ (.deliver p o payload, reply) :: earlier ∧
      ∀ e ∈ later, e.1 ≠ .ack p o

/-- Where a partition may be committed up to: its lowest offset that is not acknowledged, or else the
offset after its highest one. -/
def IsFrontier (p : Int) (h : History) (f : Int) : Prop :=
  IsLeast { o | h.Unacked p o } f ∨
    ((∀ o, ¬ h.Unacked p o) ∧ ∃ o, IsGreatest { o | h.Delivered p o } o ∧ f = o + 1)

/-- The frontier of a partition among those that were committed. -/
def frontierOf? (p : Int) : Reply → Option Int
  | .frontiers fs => (fs.find? (·.1 == p)).map (·.2)
  | _ => none

/-- The last frontier committed for a partition since it was revoked. -/
def lastCommitted (p : Int) (h : History) : Option Int :=
  (h.since p).findSome? fun e => frontierOf? p e.2

variable {p o : Int} {op : Op} {reply : Reply} {h : History}

theorem since_cons :
    since p ((op, reply) :: h) = if op = .revoke p then [] else (op, reply) :: h.since p := by
  rw [since, List.takeWhile_cons]
  by_cases hRevoke : op = .revoke p
  · simp [hRevoke]
  · simp [hRevoke, since]

theorem deliver_iff {p' o' : Int} {payload : Option (List UInt8)} :
    (∃ payload', Op.deliver p' o' payload = .deliver p o payload') ↔ p = p' ∧ o = o' := by
  constructor
  · rintro ⟨payload', hSame⟩
    cases hSame
    exact ⟨rfl, rfl⟩
  · rintro ⟨rfl, rfl⟩
    exact ⟨payload, rfl⟩

theorem delivered_cons :
    Delivered p ((op, reply) :: h) o ↔
      (∃ payload, op = .deliver p o payload) ∨ (op ≠ .revoke p ∧ h.Delivered p o) := by
  simp only [Delivered, since_cons]
  split
  · rename_i hRevoke
    simp [hRevoke]
  · rename_i hOther
    simp only [List.mem_cons, Prod.mk.injEq]
    constructor
    · rintro ⟨payload, reply', ⟨hOp, -⟩ | hOld⟩
      · exact .inl ⟨payload, hOp.symm⟩
      · exact .inr ⟨hOther, payload, reply', hOld⟩
    · rintro (⟨payload, hOp⟩ | ⟨-, payload, reply', hOld⟩)
      · exact ⟨payload, reply, .inl ⟨hOp.symm, rfl⟩⟩
      · exact ⟨payload, reply', .inr hOld⟩

theorem unacked_cons :
    Unacked p ((op, reply) :: h) o ↔
      (∃ payload, op = .deliver p o payload) ∨
        (op ≠ .revoke p ∧ op ≠ .ack p o ∧ h.Unacked p o) := by
  simp only [Unacked, since_cons]
  split
  · rename_i hRevoke
    simp [hRevoke]
  · rename_i hOther
    constructor
    · rintro ⟨later, earlier, payload, reply', hSplit, hLater⟩
      rcases List.cons_eq_append_iff.mp hSplit with ⟨rfl, hHere⟩ | ⟨later', rfl, hSince⟩
      · cases hHere
        exact .inl ⟨payload, rfl⟩
      · obtain ⟨hAck, hLater'⟩ := List.forall_mem_cons.mp hLater
        exact .inr ⟨hOther, hAck, later', earlier, payload, reply', hSince, hLater'⟩
    · rintro (⟨payload, rfl⟩ | ⟨-, hAck, later, earlier, payload, reply', hSince, hLater⟩)
      · exact ⟨[], h.since p, payload, reply, rfl, List.forall_mem_nil _⟩
      · refine ⟨(op, reply) :: later, earlier, payload, reply', by rw [hSince]; rfl, ?_⟩
        exact List.forall_mem_cons.mpr ⟨hAck, hLater⟩

theorem lastCommitted_revoke : lastCommitted p ((.revoke p, reply) :: h) = none := by
  rw [lastCommitted, since_cons, if_pos rfl]
  rfl

theorem lastCommitted_cons (hOp : op ≠ .revoke p) :
    lastCommitted p ((op, reply) :: h) = (frontierOf? p reply).or (h.lastCommitted p) := by
  rw [lastCommitted, since_cons, if_neg hOp, List.findSome?_cons]
  cases frontierOf? p reply <;> rfl

theorem Unacked.delivered (hUnacked : h.Unacked p o) : h.Delivered p o := by
  obtain ⟨later, earlier, payload, reply, hSince, -⟩ := hUnacked
  refine ⟨payload, reply, ?_⟩
  rw [hSince]
  exact List.mem_append_right _ List.mem_cons_self

theorem IsFrontier.unique {f f' : Int} (hf : h.IsFrontier p f) (hf' : h.IsFrontier p f') :
    f = f' := by
  rcases hf with hLeast | ⟨hNone, o, hGreatest, rfl⟩ <;>
    rcases hf' with hLeast' | ⟨hNone', o', hGreatest', rfl⟩
  · exact Int.le_antisymm (hLeast.2 hLeast'.1) (hLeast'.2 hLeast.1)
  · exact absurd hLeast.1 (hNone' f)
  · exact absurd hLeast'.1 (hNone f')
  · rw [Int.le_antisymm (hGreatest'.2 hGreatest.1) (hGreatest.2 hGreatest'.1)]

theorem IsFrontier.le {f : Int} (hf : h.IsFrontier p f) (ho : h.Unacked p o) : f ≤ o := by
  rcases hf with hLeast | ⟨hNone, -⟩
  · exact hLeast.2 ho
  · exact absurd ho (hNone o)

end History

end EventIngest.Ledger
