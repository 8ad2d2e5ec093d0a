import EventIngest.Proofs.LedgerHistory
import EventIngest.Proofs.LedgerEntries
/-!
# Exact commits

A ledger knows of each partition what its history tells: which offsets are not acknowledged, which
is the highest one, and what was committed last. So a commit tells of exactly those partitions whose
frontier has moved beyond what was committed before, and a revocation tells what is left to commit.
-/
namespace EventIngest.Ledger

open History

/-- What is known of a partition after its frontier was committed, if that has moved. -/
def Progress.settled (l : Ledger) (a : Progress) : Progress :=
  match l.moved? a with
  | some f => { a with committed := some f }
  | none => a

theorem commit_owned (l : Ledger) : l.commit.2.owned = l.owned.map (Progress.settled l) := rfl

theorem reach_partition {o : Int} (a : Progress) : (a.reach o).partition = a.partition := rfl

section Settled

variable (l : Ledger) (a : Progress)

theorem settled_partition : (a.settled l).partition = a.partition := by
  rw [Progress.settled]
  split <;> rfl

theorem settled_next : (a.settled l).next = a.next := by
  rw [Progress.settled]
  split <;> rfl

theorem settled_committed : (a.settled l).committed = (l.moved? a).or a.committed := by
  rw [Progress.settled]
  cases l.moved? a <;> rfl

variable {l a}

theorem moved?_eq_some {f : Int} :
    l.moved? a = some f ↔ l.frontier a = some f ∧ ∀ c, a.committed = some c → c < f := by
  rw [moved?, Option.filter_eq_some_iff]
  refine and_congr_right fun _ => ?_
  cases a.committed <;> simp

end Settled

/-- The offset after the highest one that was read, if any was. -/
def Reaches (h : History) (p : Int) : Option Int → Prop
  | none => ∀ o, ¬ h.Delivered p o
  | some n => IsGreatest { o | h.Delivered p o } (n - 1)

theorem Reaches.congr {h h' : History} {p : Int} {n : Option Int} (hReach : Reaches h p n)
    (hDelivered : ∀ o, h'.Delivered p o ↔ h.Delivered p o) : Reaches h' p n := by
  cases n <;> simpa only [Reaches, hDelivered] using hReach

theorem Reaches.reach {h h' : History} {p o : Int} {a : Progress} (hReach : Reaches h p a.next)
    (hDelivered : ∀ r, h'.Delivered p r ↔ r = o ∨ h.Delivered p r) :
    Reaches h' p (a.reach o).next := by
  rw [Progress.reach]
  cases hNext : a.next with
  | none =>
    rw [hNext] at hReach
    refine ⟨(hDelivered _).mpr (.inl (Int.add_sub_cancel ..)), ?_⟩
    intro r hr
    rcases (hDelivered r).mp hr with rfl | hOld
    · simp
    · exact absurd hOld (hReach r)
  | some n =>
    rw [hNext] at hReach
    obtain ⟨hHighest, hBound⟩ := hReach
    refine ⟨(hDelivered _).mpr ?_, fun r hr => ?_⟩
    · rcases Int.le_total n (o + 1) with hLe | hLe
      · left
        simp only [Option.map_some, Option.getD_some]
        omega
      · right
        have hMax : max n (o + 1) - 1 = n - 1 := by omega
        simp only [Option.map_some, Option.getD_some, hMax]
        exact hHighest
    · simp only [Option.map_some, Option.getD_some]
      rcases (hDelivered r).mp hr with rfl | hOld
      · omega
      · have hLe : r ≤ n - 1 := hBound hOld
        omega

/-- The ledger knows what the history tells. -/
structure Tracks (t : Trace) : Prop where
  ordered : t.ledger.Ordered
  pending : ∀ p o, (p, o) ∈ places t.ledger.pending ↔ t.history.Unacked p o
  next : ∀ p, Reaches t.history p (known p t.ledger.owned).next
  committed : ∀ p, (known p t.ledger.owned).committed = t.history.lastCommitted p

namespace Tracks

variable {t : Trace}

theorem start : Tracks {} where
  ordered := ⟨.nil, .nil⟩
  pending p o := by
    refine ⟨nofun, ?_⟩
    rintro ⟨later, earlier, payload, reply, hSince, -⟩
    simp [since] at hSince
  next p := by
    rintro o ⟨payload, reply, hMem⟩
    cases hMem
  committed _ := rfl

section Frontier

variable (h : Tracks t) {p f : Int}
include h

theorem frontier_iff :
    t.ledger.frontier (known p t.ledger.owned) = some f ↔ t.history.IsFrontier p f := by
  have hUnacked : { o | (p, o) ∈ places t.ledger.pending } = { o | t.history.Unacked p o } :=
    congrArg _ (funext fun o => propext (h.pending p o))
  have hNone : t.ledger.lowestPending p = none ↔ ∀ o, ¬ t.history.Unacked p o := by
    rw [Ordered.lowestPending_eq_none]
    exact forall_congr' fun o => not_congr (h.pending p o)
  rw [frontier, known_partition, Option.or_eq_some_iff, h.ordered.lowestPending_eq_some, hUnacked,
    hNone, IsFrontier]
  refine or_congr_right (and_congr_right fun _ => ?_)
  have hNext := h.next p
  cases hReach : (known p t.ledger.owned).next with
  | none =>
    rw [hReach] at hNext
    refine ⟨nofun, ?_⟩
    rintro ⟨o, hGreatest, -⟩
    exact absurd hGreatest.1 (hNext o)
  | some n =>
    rw [hReach] at hNext
    constructor
    · intro hf
      obtain rfl := Option.some.inj hf
      exact ⟨n - 1, hNext, by omega⟩
    · rintro ⟨o, hGreatest, rfl⟩
      have hSame : n - 1 = o := Int.le_antisymm (hGreatest.2 hNext.1) (hNext.2 hGreatest.1)
      rw [Option.some.injEq]
      omega

theorem known_mem_of_frontier (hf : t.history.IsFrontier p f) :
    known p t.ledger.owned ∈ t.ledger.owned := by
  obtain ⟨o, hDelivered⟩ : ∃ o, t.history.Delivered p o := by
    rcases hf with hLeast | ⟨-, o, hGreatest, -⟩
    · exact ⟨f, hLeast.1.delivered⟩
    · exact ⟨o, hGreatest.1⟩
  refine known_mem fun hNone => ?_
  have hNext := h.next p
  rw [hNone] at hNext
  exact hNext o hDelivered

theorem moved?_iff :
    t.ledger.moved? (known p t.ledger.owned) = some f ↔
      t.history.IsFrontier p f ∧ ∀ c, t.history.lastCommitted p = some c → c < f := by
  rw [moved?_eq_some, h.frontier_iff, h.committed]

theorem mem_commit :
    (p, f) ∈ t.ledger.commit.1 ↔ t.ledger.moved? (known p t.ledger.owned) = some f := by
  rw [Ledger.commit, List.mem_filterMap]
  constructor
  · rintro ⟨a, ha, hPair⟩
    obtain ⟨f', hf', hEq⟩ := Option.map_eq_some_iff.mp hPair
    cases hEq
    rwa [known_eq_of_mem h.ordered.owned ha]
  · intro hf
    refine ⟨known p t.ledger.owned, h.known_mem_of_frontier (h.moved?_iff.mp hf).1, ?_⟩
    rw [hf, known_partition]
    rfl

end Frontier

theorem commit_sorted (h : Tracks t) : t.ledger.commit.1.Pairwise (·.1 < ·.1) := by
  rw [Ledger.commit, List.pairwise_filterMap]
  refine h.ordered.owned.imp ?_
  intro a b hLess pair hPair pair' hPair'
  obtain ⟨f, -, rfl⟩ := Option.map_eq_some_iff.mp hPair
  obtain ⟨f', -, rfl⟩ := Option.map_eq_some_iff.mp hPair'
  exact hLess

theorem find?_commit (h : Tracks t) (p : Int) :
    frontierOf? p (.frontiers t.ledger.commit.1)
      = t.ledger.moved? (known p t.ledger.owned) := by
  rw [frontierOf?]
  cases hMoved : t.ledger.moved? (known p t.ledger.owned) with
  | none =>
    rw [Option.map_eq_none_iff, List.find?_eq_none]
    intro pair hPair hHere
    obtain ⟨q, f⟩ := pair
    obtain rfl := beq_iff_eq.mp hHere
    rw [h.mem_commit, hMoved] at hPair
    cases hPair
  | some f =>
    have hIn := h.mem_commit.mpr hMoved
    cases hFound : t.ledger.commit.1.find? (·.1 == p) with
    | none => exact absurd (beq_iff_eq.mpr rfl) (List.find?_eq_none.mp hFound (p, f) hIn)
    | some pair =>
      obtain ⟨q, f'⟩ := pair
      have hHere := List.find?_some hFound
      obtain rfl := beq_iff_eq.mp hHere
      have hFrom := h.mem_commit.mp (List.mem_of_find?_eq_some hFound)
      rw [Option.map_some, ← hFrom, hMoved]

/-- An operation that neither reads nor settles nor gives up a partition changes nothing that is
known of it. -/
theorem of_same (h : Tracks t) {op : Op} {reply : Reply} {l : Ledger} (hOrdered : l.Ordered)
    (hPlaces : places l.pending = places t.ledger.pending)
    (hKnown : ∀ p, known p l.owned = known p t.ledger.owned)
    (hDeliver : ∀ p o payload, op ≠ .deliver p o payload) (hAck : ∀ p o, op ≠ .ack p o)
    (hRevoke : ∀ p, op ≠ .revoke p) (hReply : ∀ p, frontierOf? p reply = none) :
    Tracks ⟨l, (op, reply) :: t.history⟩ where
  ordered := hOrdered
  pending p o := by
    rw [hPlaces, unacked_cons, h.pending]
    simp [hDeliver, hAck, hRevoke]
  next p := by
    rw [hKnown]
    refine (h.next p).congr fun o => ?_
    rw [delivered_cons]
    simp [hDeliver, hRevoke]
  committed p := by
    rw [hKnown, lastCommitted_cons (hRevoke p), hReply, Option.none_or, h.committed]

theorem revoke (h : Tracks t) (p : Int) : Tracks (t.step (.revoke p)) where
  ordered := h.ordered.revoke p
  pending q o := by
    change (q, o) ∈ places (t.ledger.revoke p).2.pending ↔ _
    rw [Ordered.mem_places_revoke, h.pending, Trace.step, unacked_cons]
    grind
  next q := by
    change Reaches _ q (known q (t.ledger.owned.filter (·.partition != p))).next
    by_cases hHere : q = p
    · obtain rfl := hHere
      rw [known_filter_self]
      intro o hDelivered
      rw [Trace.step, delivered_cons] at hDelivered
      simp at hDelivered
    · rw [known_filter hHere]
      refine (h.next q).congr fun o => ?_
      rw [Trace.step, delivered_cons]
      simp [Ne.symm hHere]
  committed q := by
    change (known q (t.ledger.owned.filter (·.partition != p))).committed = _
    by_cases hHere : q = p
    · obtain rfl := hHere
      rw [known_filter_self, Trace.step, lastCommitted_revoke]
    · rw [known_filter hHere, h.committed, Trace.step,
        lastCommitted_cons (by simpa using Ne.symm hHere)]
      rfl

theorem ack (h : Tracks t) (p o : Int) : Tracks (t.step (.ack p o)) where
  ordered := h.ordered.ack p o
  pending q r := by
    change (q, r) ∈ places (t.ledger.ack p o).2.pending ↔ _
    rw [Ordered.mem_places_ack, h.pending, Trace.step, unacked_cons]
    grind
  next q := by
    refine (h.next q).congr fun r => ?_
    rw [Trace.step, delivered_cons]
    simp
  committed q := by
    rw [Trace.step, lastCommitted_cons (by simp)]
    exact h.committed q

theorem deliver (h : Tracks t) (p o : Int) (payload : Option (List UInt8)) :
    Tracks (t.step (.deliver p o payload)) where
  ordered := h.ordered.deliver p o payload
  pending q r := by
    change (q, r) ∈ places (enter p o payload t.ledger.pending) ↔ _
    rw [mem_places_enter, h.pending, Trace.step, unacked_cons, deliver_iff]
    simp
  next q := by
    have hNext := h.next q
    have hDelivered : ∀ r, Delivered q (t.step (.deliver p o payload)).history r ↔
        (q = p ∧ r = o) ∨ t.history.Delivered q r := by
      intro r
      rw [Trace.step, delivered_cons, deliver_iff]
      simp
    change Reaches _ q (known q (alter p (.reach o) t.ledger.owned)).next
    rw [known_alter reach_partition h.ordered.owned]
    by_cases hHere : q = p
    · obtain rfl := hHere
      rw [if_pos rfl]
      exact hNext.reach fun r => (hDelivered r).trans (or_congr_left (and_iff_right rfl))
    · rw [if_neg hHere]
      refine hNext.congr fun r => (hDelivered r).trans (or_iff_right ?_)
      exact fun hSame => hHere hSame.1
  committed q := by
    change (known q (alter p (.reach o) t.ledger.owned)).committed = _
    rw [known_alter reach_partition h.ordered.owned, Trace.step, lastCommitted_cons (by simp)]
    by_cases hHere : q = p
    · obtain rfl := hHere
      rw [if_pos rfl]
      exact h.committed q
    · rw [if_neg hHere]
      exact h.committed q

theorem known_commit (h : Tracks t) (p : Int) :
    known p t.ledger.commit.2.owned = (known p t.ledger.owned).settled t.ledger := by
  rw [commit_owned]
  refine known_map (settled_partition t.ledger) ?_
  cases hMoved : t.ledger.moved? (known p t.ledger.owned) with
  | none =>
    right
    rw [Progress.settled, hMoved]
  | some f => exact .inl (h.known_mem_of_frontier (h.moved?_iff.mp hMoved).1)

theorem commit (h : Tracks t) : Tracks (t.step .commit) := by
  refine ⟨h.ordered.commit, ?_, ?_, ?_⟩
  · intro p o
    change (p, o) ∈ places t.ledger.pending ↔ _
    rw [h.pending, Trace.step, unacked_cons]
    simp
  · intro p
    change Reaches _ p (known p t.ledger.commit.2.owned).next
    rw [h.known_commit, settled_next]
    refine (h.next p).congr fun o => ?_
    rw [Trace.step, delivered_cons]
    simp
  · intro p
    change (known p t.ledger.commit.2.owned).committed = _
    rw [h.known_commit, settled_committed, Trace.step, lastCommitted_cons (by simp), h.committed]
    exact congrArg (Option.or · _) (h.find?_commit p).symm

theorem step (h : Tracks t) (op : Op) : Tracks (t.step op) := by
  cases op with
  | assign p =>
    exact h.of_same (h.ordered.assign p) rfl (fun _ => h.ordered.known_assign) nofun nofun nofun
      fun _ => rfl
  | revoke p => exact h.revoke p
  | deliver p o payload => exact h.deliver p o payload
  | ack p o => exact h.ack p o
  | nak p o =>
    exact h.of_same (h.ordered.nak p o) (Ordered.places_nak t.ledger p o) (fun _ => rfl) nofun nofun
      nofun fun _ => rfl
  | redeliver max =>
    exact h.of_same (h.ordered.redeliver max) (Ordered.places_redeliver t.ledger max)
      (fun _ => rfl) nofun nofun nofun fun _ => rfl
  | commit => exact h.commit

theorem run (h : Tracks t) (ops : List Op) : Tracks (t.run ops) :=
  Trace.run_keeps (fun _ op ht => ht.step op) h ops

theorem revoke_eq_some (h : Tracks t) {p f : Int} :
    (t.ledger.revoke p).1 = some f ↔
      t.history.IsFrontier p f ∧ t.history.lastCommitted p ≠ some f := by
  rw [← h.frontier_iff, ← h.committed, Ledger.revoke]
  cases hFound : t.ledger.owned.find? (·.partition == p) with
  | none =>
    refine ⟨fun hSome => (by cases hSome), fun hDue => ?_⟩
    have hOwned := h.known_mem_of_frontier (h.frontier_iff.mp hDue.1)
    have hOther := List.find?_eq_none.mp hFound _ hOwned
    rw [known_partition] at hOther
    exact absurd (beq_iff_eq.mpr rfl) hOther
  | some a =>
    have hHere : known p t.ledger.owned = a := by rw [known, hFound, Option.getD_some]
    rw [hHere, Option.bind_some, Option.filter_eq_some_iff]
    refine and_congr_right fun _ => ?_
    rw [bne_iff_ne]
    exact ne_comm

/-- A frontier that moved beyond what was committed is beyond whatever is committed later, as long
as the partition is not revoked. -/
theorem le_lastCommitted (h : Tracks t) {p f : Int} {ops : List Op} (hOps : .revoke p ∉ ops)
    (hf : ∃ c, t.history.lastCommitted p = some c ∧ f ≤ c) :
    ∃ c, (t.run ops).history.lastCommitted p = some c ∧ f ≤ c := by
  induction ops generalizing t with
  | nil => exact hf
  | cons op ops ih =>
    obtain ⟨hOp, hRest⟩ := not_or.mp (mt List.mem_cons.mpr hOps)
    refine ih (h.step op) hRest ?_
    obtain ⟨c, hc, hLe⟩ := hf
    rw [Trace.step, lastCommitted_cons (Ne.symm hOp), hc]
    cases op with
    | commit =>
      rw [Ledger.apply, h.find?_commit]
      cases hMoved : t.ledger.moved? (known p t.ledger.owned) with
      | none => exact ⟨c, rfl, hLe⟩
      | some f' =>
        have hLess := (h.moved?_iff.mp hMoved).2 c hc
        exact ⟨f', rfl, by omega⟩
    | _ => exact ⟨c, rfl, hLe⟩

end Tracks

/-- No frontier is beyond what was committed. -/
def Settled (h : History) : Prop :=
  ∀ p f, h.IsFrontier p f → ∃ c, h.lastCommitted p = some c ∧ f ≤ c

/-- An operation that neither reads nor acknowledges moves no frontier. -/
theorem isFrontier_of_cons {op : Op} {reply : Reply} {h : History} {p f : Int}
    (hDeliver : ∀ p o payload, op ≠ .deliver p o payload) (hAck : ∀ p o, op ≠ .ack p o)
    (hf : IsFrontier p ((op, reply) :: h) f) : op ≠ .revoke p ∧ h.IsFrontier p f := by
  by_cases hRevoke : op = .revoke p
  · rcases hf with hLeast | ⟨-, o, hGreatest, -⟩
    · have hUnacked := unacked_cons.mp hLeast.1
      simp [hRevoke] at hUnacked
    · have hDelivered := delivered_cons.mp hGreatest.1
      simp [hRevoke] at hDelivered
  · refine ⟨hRevoke, ?_⟩
    have hUnacked : ∀ o, Unacked p ((op, reply) :: h) o ↔ h.Unacked p o := by
      intro o
      rw [unacked_cons]
      simp [hDeliver, hAck, hRevoke]
    have hDelivered : ∀ o, Delivered p ((op, reply) :: h) o ↔ h.Delivered p o := by
      intro o
      rw [delivered_cons]
      simp [hDeliver, hRevoke]
    simpa only [IsFrontier, hUnacked, hDelivered] using hf

namespace Tracks

variable {t : Trace}

theorem settled_commit (h : Tracks t) : Settled (t.step .commit).history := by
  intro p f hf
  obtain ⟨-, hFrontier⟩ : Op.commit ≠ .revoke p ∧ t.history.IsFrontier p f :=
    isFrontier_of_cons (by simp) (by simp) hf
  rw [Trace.step, lastCommitted_cons (by simp), Ledger.apply, h.find?_commit]
  cases hMoved : t.ledger.moved? (known p t.ledger.owned) with
  | some f' =>
    obtain rfl := hFrontier.unique (h.moved?_iff.mp hMoved).1
    exact ⟨f, rfl, Int.le_refl _⟩
  | none =>
    cases hLast : t.history.lastCommitted p with
    | none =>
      have hDue := h.moved?_iff.mpr ⟨hFrontier, fun c hc => absurd hc (by simp [hLast])⟩
      rw [hMoved] at hDue
      cases hDue
    | some c =>
      refine ⟨c, rfl, Int.not_lt.mp fun hLess => ?_⟩
      have hDue := h.moved?_iff.mpr ⟨hFrontier, fun c' hc' => by
        obtain rfl := Option.some.inj (hLast.symm.trans hc')
        exact hLess⟩
      rw [hMoved] at hDue
      cases hDue

theorem settled_step (h : Tracks t) (hSettled : Settled t.history) {op : Op}
    (hDeliver : ∀ p o payload, op ≠ .deliver p o payload) (hAck : ∀ p o, op ≠ .ack p o) :
    Settled (t.step op).history := by
  intro p f hf
  obtain ⟨hRevoke, hFrontier⟩ := isFrontier_of_cons hDeliver hAck hf
  have hOp : .revoke p ∉ [op] := fun hMem => hRevoke (List.mem_singleton.mp hMem).symm
  exact h.le_lastCommitted hOp (hSettled p f hFrontier)

theorem settled_run (h : Tracks t) (hSettled : Settled t.history) {ops : List Op}
    (hDeliver : ∀ p o payload, Op.deliver p o payload ∉ ops) (hAck : ∀ p o, Op.ack p o ∉ ops) :
    Settled (t.run ops).history := by
  induction ops generalizing t with
  | nil => exact hSettled
  | cons op ops ih =>
    refine ih (h.step op) (h.settled_step hSettled ?_ ?_) ?_ ?_
    · exact fun p o payload hOp => hDeliver p o payload (hOp ▸ List.mem_cons_self)
    · exact fun p o hOp => hAck p o (hOp ▸ List.mem_cons_self)
    · exact fun p o payload hMem => hDeliver p o payload (List.mem_cons_of_mem op hMem)
    · exact fun p o hMem => hAck p o (List.mem_cons_of_mem op hMem)

theorem commit_eq_nil (h : Tracks t) (hSettled : Settled t.history) : t.ledger.commit.1 = [] := by
  refine List.eq_nil_iff_forall_not_mem.mpr ?_
  rintro ⟨p, f⟩ hPair
  obtain ⟨hFrontier, hLess⟩ := h.moved?_iff.mp (h.mem_commit.mp hPair)
  obtain ⟨c, hc, hLe⟩ := hSettled p f hFrontier
  have hBeyond := hLess c hc
  omega

end Tracks

/-- After any operations on a ledger, a commit tells, in order and each once, of the partitions
whose frontier has moved beyond what was last committed for them, and a revocation tells the
frontier of a partition unless it was committed last. No frontier that is committed is beyond an
offset that is not acknowledged, those of a partition increase until it is revoked, and a commit
leaves nothing for another one before something is read or acknowledged. -/
theorem commits_are_exact (ops : List Op) :
    let t := Trace.run ops {}
    (t.ledger.commit.1.Pairwise (·.1 < ·.1) ∧
      ∀ p f, (p, f) ∈ t.ledger.commit.1 ↔
        t.history.IsFrontier p f ∧ ∀ c, t.history.lastCommitted p = some c → c < f) ∧
    (∀ p f o, (p, f) ∈ t.ledger.commit.1 → t.history.Unacked p o → f ≤ o) ∧
    (∀ p f f' more, (p, f) ∈ t.ledger.commit.1 → .revoke p ∉ more →
      (p, f') ∈ (t.run (.commit :: more)).ledger.commit.1 → f < f') ∧
    (∀ more, (∀ p o payload, Op.deliver p o payload ∉ more) → (∀ p o, Op.ack p o ∉ more) →
      (t.run (.commit :: more)).ledger.commit.1 = []) ∧
    ∀ p f, (t.ledger.revoke p).1 = some f ↔
      t.history.IsFrontier p f ∧ t.history.lastCommitted p ≠ some f := by
  intro t
  have h : Tracks t := Tracks.start.run ops
  have hDue : ∀ p f, (p, f) ∈ t.ledger.commit.1 ↔
      t.history.IsFrontier p f ∧ ∀ c, t.history.lastCommitted p = some c → c < f :=
    fun p f => h.mem_commit.trans h.moved?_iff
  refine ⟨⟨h.commit_sorted, hDue⟩, ?_, ?_, ?_, fun p f => h.revoke_eq_some⟩
  · intro p f o hf hUnacked
    exact ((hDue p f).mp hf).1.le hUnacked
  · intro p f f' more hf hMore hf'
    have hCommitted : ∃ c, (t.step .commit).history.lastCommitted p = some c ∧ f ≤ c := by
      refine ⟨f, ?_, Int.le_refl _⟩
      rw [Trace.step, lastCommitted_cons (by simp), Ledger.apply, h.find?_commit,
        h.mem_commit.mp hf]
      rfl
    obtain ⟨c, hc, hLe⟩ := (h.step .commit).le_lastCommitted hMore hCommitted
    have hAfter : Tracks (t.run (.commit :: more)) := h.run (.commit :: more)
    have hLess := (hAfter.moved?_iff.mp (hAfter.mem_commit.mp hf')).2 c hc
    omega
  · intro more hDeliver hAck
    have hAfter : Tracks (t.run (.commit :: more)) := h.run (.commit :: more)
    exact hAfter.commit_eq_nil ((h.step .commit).settled_run h.settled_commit hDeliver hAck)

/-- Offset 7 was given back and holds its partition: it is committed once, not again when it is
handed out again, and passed when it is acknowledged. -/
theorem given_back_offset_holds_its_partition :
    let t := Trace.run
      [.deliver 0 5 none, .deliver 0 7 none, .deliver 1 2 none, .ack 0 5, .nak 0 7] {}
    t.ledger.commit.1 = [(0, 7), (1, 2)] ∧ t.history.IsFrontier 0 7 ∧
      (t.run [.commit, .redeliver 2, .nak 0 7]).ledger.commit.1 = [] ∧
      (t.run [.commit, .ack 0 7]).ledger.commit.1 = [(0, 8)] ∧ (7 : Int) < 8 ∧
      t.history.lastCommitted 0 ≠ some 7 := by
  intro t
  obtain ⟨⟨-, hDue⟩, -, hIncrease, hAgain, hRevoke⟩ := commits_are_exact
    [.deliver 0 5 none, .deliver 0 7 none, .deliver 1 2 none, .ack 0 5, .nak 0 7]
  have hFirst : t.ledger.commit.1 = [(0, 7), (1, 2)] := by decide
  have hHeld : ((0 : Int), (7 : Int)) ∈ t.ledger.commit.1 := by decide
  refine ⟨hFirst, ((hDue 0 7).mp hHeld).1, hAgain [.redeliver 2, .nak 0 7] (by simp) (by simp),
    by decide, hIncrease 0 7 8 [.ack 0 7] hHeld (by decide) (by decide), ?_⟩
  exact ((hRevoke 0 7).mp (by decide)).2

end EventIngest.Ledger
