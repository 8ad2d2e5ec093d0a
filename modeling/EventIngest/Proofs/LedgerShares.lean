import EventIngest.Proofs.LedgerParts
/-!
# Shares of a redelivery

All partitions share the limit of a redelivery, and the lowest is served first. Ledgers that are the
same on some partitions hand out the same there if these get equally much, if neither limit is
reached, or if no lower partition is left out of sight; and some other limit always does it.
-/
namespace EventIngest.Ledger

section Taking

variable {α : Type} {f : α → Bool}

theorem filter_take_eq (as : List α) (n : Nat) :
    (as.take n).filter f = (as.filter f).take ((as.take n).filter f).length :=
  List.prefix_iff_eq_take.mp ((List.take_prefix n as).filter f)

theorem exists_filter_take (as : List α) (k : Nat) :
    ∃ n, (as.take n).filter f = (as.filter f).take k := by
  induction as generalizing k with
  | nil => exact ⟨0, by simp⟩
  | cons a as ih =>
    cases ha : f a with
    | false =>
      obtain ⟨n, hn⟩ := ih k
      exact ⟨n + 1, by simp [ha, hn]⟩
    | true =>
      cases k with
      | zero => exact ⟨0, rfl⟩
      | succ k =>
        obtain ⟨n, hn⟩ := ih k
        exact ⟨n + 1, by simp [ha, hn]⟩

/-- If no other element stands before one of the kind, the first ones are taken in either order. -/
theorem filter_take_of_pairwise {as : List α} (h : as.Pairwise fun a b => f b = true → f a = true)
    (n : Nat) : (as.take n).filter f = (as.filter f).take n := by
  induction as generalizing n with
  | nil => simp
  | cons a as ih =>
    obtain ⟨hFirst, hRest⟩ := List.pairwise_cons.mp h
    cases n with
    | zero => rfl
    | succ n =>
      cases ha : f a with
      | true => simp [ha, ih hRest]
      | false =>
        have hNone : as.filter f = [] := by
          refine List.filter_eq_nil_iff.mpr fun b hb hKind => ?_
          have hKinds := hFirst b hb hKind
          rw [ha] at hKinds
          cases hKinds
        rw [List.take_succ_cons, List.filter_cons_of_neg (by simp [ha]),
          List.filter_cons_of_neg (by simp [ha]), ih hRest, hNone]
        simp

end Taking

/-- A redelivery hands out equally many messages of a scope, or it reaches its limit in neither
ledger. -/
def EqualShare (scope : Int → Bool) (l l' : Ledger) (max : Nat) : Prop :=
  (l.redeliver max).1.countP (scope ·.handle.partition)
      = (l'.redeliver max).1.countP (scope ·.handle.partition) ∨
    (l.redeliver max).1.length < max ∧ (l'.redeliver max).1.length < max

/-- Every redelivery among some operations leaves a scope the same share. -/
def SharedEqually (scope : Int → Bool) (l l' : Ledger) (ops : List Op) : Prop :=
  ∀ before max, before ++ [.redeliver max] <+: ops →
    EqualShare scope (l.after before) (l'.after before) max

theorem SharedEqually.tail {scope : Int → Bool} {l l' : Ledger} {op : Op} {ops : List Op}
    (h : SharedEqually scope l l' (op :: ops)) :
    SharedEqually scope (l.apply op).2 (l'.apply op).2 ops :=
  fun before max hBefore => h (op :: before) max (List.cons_prefix_cons.mpr ⟨rfl, hBefore⟩)

/-- With a partition, the lower ones are in the scope. -/
def Downward (scope : Int → Bool) : Prop := ∀ p q, p ≤ q → scope q = true → scope p = true

def Op.withoutLimit : Op → Op
  | .redeliver _ => .redeliver 0
  | op => op

section Drawing

variable {scope narrow : Int → Bool} {l l' : Ledger}

theorem drawn_eq (l : Ledger) (scope : Int → Bool) (max : Nat) :
    l.drawn scope max
      = ((l.redeliver max).1.filter (scope ·.handle.partition)).map Delivery.place := by
  rw [drawn, ← places_handOutQueued, List.filter_map]
  rfl

theorem drawn_eq_take (l : Ledger) (scope : Int → Bool) (max : Nat) :
    l.drawn scope max
      = ((queuedPlaces l.pending).filter (scope ·.1)).take (l.drawn scope max).length :=
  filter_take_eq _ max

theorem length_drawn (l : Ledger) (scope : Int → Bool) (max : Nat) :
    (l.drawn scope max).length = (l.redeliver max).1.countP (scope ·.handle.partition) := by
  rw [drawn_eq, List.length_map, List.countP_eq_length_filter]

theorem drawn_narrow (hNarrow : ∀ p, narrow p = true → scope p = true) (l : Ledger) (max : Nat) :
    l.drawn narrow max = (l.drawn scope max).filter (narrow ·.1) := by
  rw [drawn, drawn, List.filter_filter]
  refine List.filter_congr fun a _ => ?_
  cases ha : narrow a.1 with
  | false => rfl
  | true => rw [hNarrow a.1 ha, Bool.and_self]

theorem drawn_all {max : Nat} (h : (l.redeliver max).1.length < max) :
    l.drawn scope max = (queuedPlaces l.pending).filter (scope ·.1) := by
  have hLength : ((queuedPlaces l.pending).take max).length < max := by
    rwa [← places_handOutQueued, List.length_map]
  rw [List.length_take] at hLength
  rw [drawn, List.take_of_length_le (by omega)]

namespace SameOn

variable (h : SameOn scope l l') (hl : l.Reachable) (hl' : l'.Reachable)
include h hl hl'

theorem drawn_of_share {max : Nat} (hShare : EqualShare scope l l' max) :
    l.drawn scope max = l'.drawn scope max := by
  rcases hShare with hCount | ⟨hBelow, hBelow'⟩
  · rw [← length_drawn, ← length_drawn] at hCount
    rw [drawn_eq_take, hCount, h.queuedPlaces_eq hl hl', ← drawn_eq_take]
  · rw [drawn_all hBelow, drawn_all hBelow', h.queuedPlaces_eq hl hl']

theorem drawn_of_downward (hDown : Downward scope) (max : Nat) :
    l.drawn scope max = l'.drawn scope max := by
  have hPairwise : ∀ l : Ledger, l.Reachable →
      (queuedPlaces l.pending).Pairwise fun a b => scope b.1 = true → scope a.1 = true := by
    intro l hl
    refine hl.ordered.pending.queuedPlaces_sorted.imp fun {a b} hBefore => ?_
    refine hDown a.1 b.1 ?_
    simp only [Precedes] at hBefore
    omega
  rw [drawn, drawn, filter_take_of_pairwise (hPairwise l hl), filter_take_of_pairwise (hPairwise l' hl'),
    h.queuedPlaces_eq hl hl']

/-- Some limit lets the other ledger hand out the same places of the scope. -/
theorem exists_drawn (max : Nat) : ∃ max', l.drawn scope max = l'.drawn scope max' := by
  obtain ⟨max', hMax'⟩ := exists_filter_take (f := fun a : Int × Int => scope a.1)
    (queuedPlaces l'.pending) (l.drawn scope max).length
  refine ⟨max', (drawn_eq_take l scope max).trans ?_⟩
  rw [h.queuedPlaces_eq hl hl']
  exact hMax'.symm

end SameOn

theorem StepsAlike.self {op : Op}
    (hDrawn : ∀ max, op = .redeliver max → l.drawn scope max = l'.drawn scope max) :
    StepsAlike scope l l' op op := by
  cases op with
  | redeliver max => exact .redeliver (hDrawn max rfl)
  | _ => exact .same nofun

namespace SameOn

theorem runs_of_shares (h : SameOn scope l l') (hl : l.Reachable) (hl' : l'.Reachable)
    {ops : List Op} (hShares : SharedEqually scope l l' ops) : RunsAlike scope l l' ops ops := by
  induction ops generalizing l l' with
  | nil => exact .nil
  | cons op ops ih =>
    have hStep : StepsAlike scope l l' op op := by
      refine .self fun max hOp => ?_
      refine h.drawn_of_share hl hl' (hShares [] max ?_)
      rw [hOp]
      exact List.prefix_append [.redeliver max] ops
    exact .cons hStep (ih (h.step hl hl' hStep) (hl.apply op) (hl'.apply op) hShares.tail)

/-- Partitions are not affected by the higher ones. -/
theorem runs_of_downward (h : SameOn scope l l') (hl : l.Reachable) (hl' : l'.Reachable)
    (hDown : Downward scope) (hNarrow : ∀ p, narrow p = true → scope p = true) (ops : List Op) :
    RunsAlike narrow l l' ops ops := by
  induction ops generalizing l l' with
  | nil => exact .nil
  | cons op ops ih =>
    have hDrawn := h.drawn_of_downward hl hl' hDown
    have hStep : StepsAlike scope l l' op op := .self fun max _ => hDrawn max
    refine .cons (.self fun max _ => ?_) (ih (h.step hl hl' hStep) (hl.apply op) (hl'.apply op))
    rw [drawn_narrow hNarrow, hDrawn, ← drawn_narrow hNarrow]

theorem exists_runs (h : SameOn scope l l') (hl : l.Reachable) (hl' : l'.Reachable)
    (ops : List Op) : ∃ ops', ops'.map Op.withoutLimit = ops.map Op.withoutLimit ∧
      RunsAlike scope l l' ops ops' := by
  induction ops generalizing l l' with
  | nil => exact ⟨[], rfl, .nil⟩
  | cons op ops ih =>
    obtain ⟨op', hOp, hStep⟩ : ∃ op', op'.withoutLimit = op.withoutLimit ∧
        StepsAlike scope l l' op op' := by
      cases op with
      | redeliver max =>
        obtain ⟨max', hDrawn⟩ := h.exists_drawn hl hl' max
        exact ⟨.redeliver max', rfl, .redeliver hDrawn⟩
      | _ => exact ⟨_, rfl, .same nofun⟩
    obtain ⟨ops', hOps, hRest⟩ := ih (h.step hl hl' hStep) (hl.apply op) (hl'.apply op')
    refine ⟨op' :: ops', ?_, .cons hStep hRest⟩
    rw [List.map_cons, List.map_cons, hOp, hOps]

end SameOn

end Drawing

end EventIngest.Ledger
