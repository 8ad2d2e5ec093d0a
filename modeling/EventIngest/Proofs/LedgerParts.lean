import EventIngest.Proofs.CommitExact
import Mathlib.Data.List.Sort
/-!
# Parts of a ledger

Two ledgers are the same on some partitions if they have the same entries there and know the same of
them. Every operation keeps this and tells the same of these partitions in both ledgers. Only when
messages are handed out again do the other partitions matter, because all of them share one limit.
-/
namespace EventIngest.Ledger

def after (l : Ledger) (ops : List Op) : Ledger := ops.foldl (fun l op => (l.apply op).2) l

def replies (l : Ledger) : List Op → List Reply
  | [] => []
  | op :: ops => (l.apply op).1 :: (l.apply op).2.replies ops

theorem after_append (l : Ledger) (ops more : List Op) :
    l.after (ops ++ more) = (l.after ops).after more := List.foldl_append

/-- The operation is about one of these partitions, or about all there are. -/
def Op.isOn (scope : Int → Bool) : Op → Bool
  | .assign p | .revoke p | .deliver p _ _ | .ack p _ | .nak p _ => scope p
  | .redeliver _ | .commit => true

def Reply.on (scope : Int → Bool) : Reply → Reply
  | .deliveries ds => .deliveries (ds.filter (scope ·.handle.partition))
  | .frontiers fs => .frontiers (fs.filter (scope ·.1))
  | reply => reply

/-- What some operations tell of these partitions. -/
def results (l : Ledger) (scope : Int → Bool) (ops : List Op) : List Reply :=
  ((ops.zip (l.replies ops)).filter (·.1.isOn scope)).map (·.2.on scope)

theorem results_cons (l : Ledger) (scope : Int → Bool) (op : Op) (ops : List Op) :
    l.results scope (op :: ops)
      = (if op.isOn scope then [(l.apply op).1.on scope] else [])
        ++ (l.apply op).2.results scope ops := by
  rw [results, replies, List.zip_cons_cons, List.filter_cons]
  split <;> rfl

/-- The ledger has a history that tells all of it. -/
def Reachable (l : Ledger) : Prop := ∃ t : Trace, Tracks t ∧ t.ledger = l

namespace Reachable

variable {l : Ledger}

theorem empty : Reachable {} := ⟨{}, Tracks.start, rfl⟩

theorem apply (h : l.Reachable) (op : Op) : (l.apply op).2.Reachable := by
  obtain ⟨t, hTracks, rfl⟩ := h
  exact ⟨t.step op, hTracks.step op, rfl⟩

theorem after (h : l.Reachable) (ops : List Op) : (l.after ops).Reachable := by
  induction ops generalizing l with
  | nil => exact h
  | cons op ops ih => exact ih (h.apply op)

theorem ordered (h : l.Reachable) : l.Ordered := by
  obtain ⟨t, hTracks, rfl⟩ := h
  exact hTracks.ordered

theorem revoke_fst (h : l.Reachable) (p : Int) :
    (l.revoke p).1
      = (l.frontier (known p l.owned)).filter (some · != (known p l.owned).committed) := by
  obtain ⟨t, hTracks, rfl⟩ := h
  ext f
  rw [hTracks.revoke_eq_some, ← hTracks.frontier_iff, ← hTracks.committed,
    Option.filter_eq_some_iff, bne_iff_ne, ne_comm]

theorem mem_commit (h : l.Reachable) {p f : Int} :
    (p, f) ∈ l.commit.1 ↔ l.moved? (known p l.owned) = some f := by
  obtain ⟨t, hTracks, rfl⟩ := h
  exact hTracks.mem_commit

theorem commit_sorted (h : l.Reachable) : l.commit.1.Pairwise (·.1 < ·.1) := by
  obtain ⟨t, hTracks, rfl⟩ := h
  exact hTracks.commit_sorted

theorem known_commit (h : l.Reachable) (p : Int) :
    known p l.commit.2.owned = (known p l.owned).settled l := by
  obtain ⟨t, hTracks, rfl⟩ := h
  exact hTracks.known_commit p

end Reachable

/-- The places within a scope among those that a redelivery hands out. -/
def drawn (l : Ledger) (scope : Int → Bool) (max : Nat) : List (Int × Int) :=
  ((queuedPlaces l.pending).take max).filter (scope ·.1)

/-- What a redelivery hands out within a scope depends on the places and on the entries there. -/
theorem Ordered.redeliver_on {l : Ledger} (h : l.Ordered) (scope : Int → Bool) (max : Nat) :
    (l.redeliver max).1.filter (scope ·.handle.partition)
      = (l.drawn scope max).filterMap fun a => (l.find? a.1 a.2).map (·.handOut.delivery) := by
  rw [redeliver_fst, List.filter_map, drawn, queuedPlaces, places, ← List.map_take, List.filter_map,
    List.filterMap_map, ← List.filterMap_eq_map]
  refine List.filterMap_congr fun e he => ?_
  have hPending : e ∈ l.pending :=
    (List.mem_filter.mp (List.mem_of_mem_take (List.mem_filter.mp he).1)).1
  have hFound : l.find? e.partition e.offset = some e :=
    h.pending.find?_eq_some.mpr ⟨hPending, rfl⟩
  simp only [Function.comp_apply, hFound, Option.map_some]

/-- The entries of a scope and what is known of its partitions are the same. -/
structure SameOn (scope : Int → Bool) (l l' : Ledger) : Prop where
  found : ∀ p, scope p = true → ∀ o, l.find? p o = l'.find? p o
  known : ∀ p, scope p = true → known p l.owned = known p l'.owned

/-- The same operation, except that redeliveries may differ in their limits if they hand out the
same places of the scope. -/
inductive StepsAlike (scope : Int → Bool) (l l' : Ledger) : Op → Op → Prop
  | same {op : Op} (hOther : ∀ max, op ≠ .redeliver max) : StepsAlike scope l l' op op
  | redeliver {max max' : Nat} (hDrawn : l.drawn scope max = l'.drawn scope max') :
      StepsAlike scope l l' (.redeliver max) (.redeliver max')

inductive RunsAlike (scope : Int → Bool) : Ledger → Ledger → List Op → List Op → Prop
  | nil {l l' : Ledger} : RunsAlike scope l l' [] []
  | cons {l l' : Ledger} {op op' : Op} {ops ops' : List Op} (hStep : StepsAlike scope l l' op op')
      (hRest : RunsAlike scope (l.apply op).2 (l'.apply op').2 ops ops') :
      RunsAlike scope l l' (op :: ops) (op' :: ops')

namespace SameOn

variable {scope : Int → Bool} {l l' l'' : Ledger}

theorem refl (l : Ledger) : SameOn scope l l := ⟨fun _ _ _ => rfl, fun _ _ => rfl⟩

theorem symm (h : SameOn scope l l') : SameOn scope l' l :=
  ⟨fun p hp o => (h.found p hp o).symm, fun p hp => (h.known p hp).symm⟩

theorem trans (h : SameOn scope l l') (h' : SameOn scope l' l'') : SameOn scope l l'' :=
  ⟨fun p hp o => (h.found p hp o).trans (h'.found p hp o),
    fun p hp => (h.known p hp).trans (h'.known p hp)⟩

theorem mono {narrow : Int → Bool} (h : SameOn scope l l')
    (hNarrow : ∀ p, narrow p = true → scope p = true) : SameOn narrow l l' :=
  ⟨fun p hp => h.found p (hNarrow p hp), fun p hp => h.known p (hNarrow p hp)⟩

theorem of_each (h : ∀ p, scope p = true → SameOn (· == p) l l') : SameOn scope l l' :=
  ⟨fun p hp => (h p hp).found p (beq_self_eq_true p),
    fun p hp => (h p hp).known p (beq_self_eq_true p)⟩

section Reading

variable (h : SameOn scope l l') (hl : l.Reachable) (hl' : l'.Reachable)
include h hl hl'

theorem lowestPending {p : Int} (hp : scope p = true) : l.lowestPending p = l'.lowestPending p := by
  have hPlaces : ∀ o, (p, o) ∈ places l.pending ↔ (p, o) ∈ places l'.pending := by
    intro o
    rw [← isPending_iff, ← isPending_iff, isPending, isPending, h.found p hp]
  ext o
  rw [hl.ordered.lowestPending_eq_some, hl'.ordered.lowestPending_eq_some]
  simp only [hPlaces]

theorem frontier {p : Int} (hp : scope p = true) :
    l.frontier (Ledger.known p l.owned) = l'.frontier (Ledger.known p l'.owned) := by
  rw [Ledger.frontier, Ledger.frontier, known_partition, known_partition,
    h.lowestPending hl hl' hp, h.known p hp]

theorem moved? {p : Int} (hp : scope p = true) :
    l.moved? (Ledger.known p l.owned) = l'.moved? (Ledger.known p l'.owned) := by
  rw [Ledger.moved?, Ledger.moved?, h.frontier hl hl' hp, h.known p hp]

theorem queuedPlaces_eq :
    (queuedPlaces l.pending).filter (scope ·.1) = (queuedPlaces l'.pending).filter (scope ·.1) := by
  refine List.Pairwise.eq_of_mem_iff (hl.ordered.pending.queuedPlaces_sorted.sublist List.filter_sublist)
    (hl'.ordered.pending.queuedPlaces_sorted.sublist List.filter_sublist) ?_
  rintro ⟨p, o⟩
  rw [List.mem_filter, List.mem_filter, hl.ordered.pending.mem_queuedPlaces,
    hl'.ordered.pending.mem_queuedPlaces]
  refine and_congr_left fun hp => ?_
  have hFound := h.found p hp o
  rw [find?, find?] at hFound
  rw [hFound]

end Reading

section Stepping

variable (h : SameOn scope l l') (hl : l.Reachable) (hl' : l'.Reachable)
include h

theorem revoke (q : Int) : SameOn scope (l.revoke q).2 (l'.revoke q).2 := by
  refine ⟨fun p hp o => ?_, fun p hp => ?_⟩
  · rw [find?_revoke, find?_revoke, h.found p hp]
  · rw [known_revoke, known_revoke, h.known p hp]

theorem ack (q r : Int) : SameOn scope (l.ack q r).2 (l'.ack q r).2 := by
  refine ⟨fun p hp o => ?_, h.known⟩
  rw [find?_ack, find?_ack, h.found p hp]

theorem nak (q r : Int) : SameOn scope (l.nak q r).2 (l'.nak q r).2 := by
  refine ⟨fun p hp o => ?_, h.known⟩
  rw [find?_nak, find?_nak, h.found p hp]

include hl hl'

theorem assign (q : Int) : SameOn scope (l.assign q) (l'.assign q) := by
  refine ⟨h.found, fun p hp => ?_⟩
  rw [hl.ordered.known_assign, hl'.ordered.known_assign, h.known p hp]

theorem deliver (q r : Int) (payload : Option (List UInt8)) :
    SameOn scope (l.deliver q r payload).2 (l'.deliver q r payload).2 := by
  refine ⟨fun p hp o => ?_, fun p hp => ?_⟩
  · rw [hl.ordered.find?_deliver, hl'.ordered.find?_deliver]
    split
    · rename_i hHere
      rw [← hHere.1, h.found p hp]
    · exact h.found p hp o
  · rw [hl.ordered.known_deliver, hl'.ordered.known_deliver]
    split
    · rename_i hHere
      rw [← hHere, h.known p hp]
    · exact h.known p hp

theorem redeliver {max max' : Nat} (hDrawn : l.drawn scope max = l'.drawn scope max') :
    SameOn scope (l.redeliver max).2 (l'.redeliver max').2 := by
  refine ⟨fun p hp o => ?_, h.known⟩
  have hIn : (p, o) ∈ (queuedPlaces l.pending).take max ↔
      (p, o) ∈ (queuedPlaces l'.pending).take max' := by
    have hMem : (p, o) ∈ l.drawn scope max ↔ (p, o) ∈ l'.drawn scope max' := by rw [hDrawn]
    simpa only [drawn, List.mem_filter, hp, and_true] using hMem
  rw [hl.ordered.find?_redeliver, hl'.ordered.find?_redeliver, h.found p hp]
  simp only [hIn]

theorem commit : SameOn scope l.commit.2 l'.commit.2 := by
  refine ⟨h.found, fun p hp => ?_⟩
  rw [hl.known_commit, hl'.known_commit, Progress.settled, Progress.settled, h.moved? hl hl' hp,
    h.known p hp]

variable {op op' : Op}

theorem step (hAlike : StepsAlike scope l l' op op') :
    SameOn scope (l.apply op).2 (l'.apply op').2 := by
  cases hAlike with
  | redeliver hDrawn => exact h.redeliver hl hl' hDrawn
  | same hOther =>
    cases op with
    | assign q => exact h.assign hl hl' q
    | revoke q => exact h.revoke q
    | deliver q r payload => exact h.deliver hl hl' q r payload
    | ack q r => exact h.ack q r
    | nak q r => exact h.nak q r
    | redeliver max => exact absurd rfl (hOther max)
    | commit => exact h.commit hl hl'

theorem commit_fst : l.commit.1.filter (scope ·.1) = l'.commit.1.filter (scope ·.1) := by
  have : Std.Antisymm fun a b : Int × Int => a.1 < b.1 := ⟨fun a b hLess hMore => by omega⟩
  have : Std.Irrefl fun a b : Int × Int => a.1 < b.1 := ⟨fun a => Int.lt_irrefl a.1⟩
  refine List.Pairwise.eq_of_mem_iff (hl.commit_sorted.sublist List.filter_sublist)
    (hl'.commit_sorted.sublist List.filter_sublist) ?_
  rintro ⟨p, f⟩
  rw [List.mem_filter, List.mem_filter, hl.mem_commit, hl'.mem_commit]
  refine and_congr_left fun hp => ?_
  rw [h.moved? hl hl' hp]

/-- Operations that are alike tell the same of the scope. -/
theorem reply (hAlike : StepsAlike scope l l' op op') (hOn : op.isOn scope = true) :
    (l.apply op).1.on scope = (l'.apply op').1.on scope := by
  have hAfter := h.step hl hl' hAlike
  cases hAlike with
  | redeliver hDrawn =>
    refine congrArg Reply.deliveries ?_
    rw [hl.ordered.redeliver_on, hl'.ordered.redeliver_on, hDrawn]
    refine List.filterMap_congr fun a ha => ?_
    rw [h.found a.1 (List.mem_filter.mp ha).2]
  | same hOther =>
    cases op with
    | assign q => rfl
    | revoke q =>
      change Reply.due (l.revoke q).1 = Reply.due (l'.revoke q).1
      rw [hl.revoke_fst, hl'.revoke_fst, h.frontier hl hl' hOn, h.known q hOn]
    | deliver q r payload =>
      -- The count is read off the entry that the delivery leaves.
      have hFound : (l.deliver q r payload).2.find? q r = (l'.deliver q r payload).2.find? q r :=
        hAfter.found q hOn r
      exact congrArg (fun e : Option Entry => Reply.count ((e.map (·.deliveries)).getD 0)) hFound
    | ack q r | nak q r =>
      exact congrArg (fun e : Option Entry => Reply.wasPending e.isSome) (h.found q hOn r)
    | redeliver max => exact absurd rfl (hOther max)
    | commit => exact congrArg Reply.frontiers (h.commit_fst hl hl')

end Stepping

/-- Runs that are alike tell the same of the scope. -/
theorem results {ops ops' : List Op} (h : SameOn scope l l') (hl : l.Reachable) (hl' : l'.Reachable)
    (hAlike : RunsAlike scope l l' ops ops') : l.results scope ops = l'.results scope ops' := by
  induction hAlike with
  | nil => rfl
  | @cons l l' op op' ops ops' hStep hRest ih =>
    have hOn : op.isOn scope = op'.isOn scope := by cases hStep <;> rfl
    have hRests := ih (h.step hl hl' hStep) (hl.apply op) (hl'.apply op')
    rw [results_cons, results_cons, hRests, hOn]
    split
    · rename_i hOps
      rw [h.reply hl hl' hStep (hOn ▸ hOps)]
    · rfl

end SameOn

end EventIngest.Ledger
