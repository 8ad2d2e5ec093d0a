import EventIngest.Proofs.LedgerShares
/-!
# Partitions are isolated

What a ledger tells of a partition depends neither on the others nor on what was before the
partition was revoked, except for the share that it gets of a redelivery. To assign a partition
changes nothing that is told, and operations on different partitions can be swapped.
-/
namespace EventIngest.Ledger

def Op.partition? : Op → Option Int
  | .revoke p | .deliver p _ _ | .ack p _ | .nak p _ => some p
  | _ => none

def Op.settles? : Op → Option (Int × Int)
  | .ack p o | .nak p o => some (p, o)
  | _ => none

def Op.isAssign : Op → Bool
  | .assign _ => true
  | _ => false

/-- All that comes after the two ledgers tells the same of a scope: altogether if the redeliveries
leave the scope the same share, and otherwise for other limits. -/
def Indistinct (scope : Int → Bool) (l l' : Ledger) : Prop :=
  ∀ ops, (SharedEqually scope l l' ops → l.results scope ops = l'.results scope ops) ∧
    ∃ ops', ops'.map Op.withoutLimit = ops.map Op.withoutLimit ∧
      l.results scope ops = l'.results scope ops'

/-- Two operations can be swapped: this changes neither their replies nor any later one. -/
def Commute (l : Ledger) (a b : Op) : Prop :=
  (l.apply a).1 = ((l.apply b).2.apply a).1 ∧ (l.apply b).1 = ((l.apply a).2.apply b).1 ∧
    ∀ ops, ((l.apply a).2.apply b).2.replies ops = ((l.apply b).2.apply a).2.replies ops

variable {scope : Int → Bool} {l l' : Ledger} {a b : Op} {p q : Int}

theorem SameOn.indistinct (h : SameOn scope l l') (hl : l.Reachable) (hl' : l'.Reachable) :
    Indistinct scope l l' := by
  refine fun ops => ⟨fun hShares => h.results hl hl' (h.runs_of_shares hl hl' hShares), ?_⟩
  obtain ⟨ops', hOps, hRuns⟩ := h.exists_runs hl hl' ops
  exact ⟨ops', hOps, h.results hl hl' hRuns⟩

section Everywhere

theorem results_everywhere (l : Ledger) (ops : List Op) :
    l.results (fun _ => true) ops = l.replies ops := by
  induction ops generalizing l with
  | nil => rfl
  | cons op ops ih =>
    have hOn : op.isOn (fun _ => true) = true := by cases op <;> rfl
    have hReply : (l.apply op).1.on (fun _ => true) = (l.apply op).1 := by
      cases (l.apply op).1 <;> simp [Reply.on]
    rw [results_cons, ih, hOn, hReply]
    rfl

theorem SameOn.replies (h : SameOn (fun _ => true) l l') (hl : l.Reachable) (hl' : l'.Reachable)
    (ops : List Op) : l.replies ops = l'.replies ops := by
  rw [← results_everywhere, ← results_everywhere]
  exact h.results hl hl' (h.runs_of_downward hl hl' (fun _ _ _ _ => rfl) (fun _ _ => rfl) ops)

theorem SameOn.step_everywhere (h : SameOn (fun _ => true) l l') (hl : l.Reachable)
    (hl' : l'.Reachable) (op : Op) : SameOn (fun _ => true) (l.apply op).2 (l'.apply op).2 :=
  h.step hl hl' (.self fun max _ => h.drawn_of_downward hl hl' (fun _ _ _ _ => rfl) max)

end Everywhere

section Elsewhere

theorem SameOn.assigned (hl : l.Reachable) (p : Int) : SameOn scope l (l.assign p) :=
  ⟨fun _ _ _ => rfl, fun _ _ => hl.ordered.known_assign.symm⟩

/-- An operation on a partition that is out of sight changes nothing that is in sight. -/
theorem SameOn.of_elsewhere (hl : l.Reachable) (ha : a.partition? = some p) (hp : scope p = false) :
    SameOn scope l (l.apply a).2 := by
  have hOther : ∀ q, scope q = true → q ≠ p := by
    rintro q hq rfl
    rw [hp] at hq
    cases hq
  cases a with
  | revoke r =>
    obtain rfl := Option.some.inj ha
    refine ⟨fun q hq o => ?_, fun q hq => ?_⟩
    · exact (find?_revoke.trans (if_neg (hOther q hq))).symm
    · exact (known_revoke.trans (if_neg (hOther q hq))).symm
  | deliver r o payload =>
    obtain rfl := Option.some.inj ha
    refine ⟨fun q hq o' => ?_, fun q hq => ?_⟩
    · exact ((hl.ordered.find?_deliver payload).trans
        (if_neg fun hHere => hOther q hq hHere.1)).symm
    · exact ((hl.ordered.known_deliver payload).trans (if_neg (hOther q hq))).symm
  | ack r o =>
    obtain rfl := Option.some.inj ha
    refine ⟨fun q hq o' => ?_, fun _ _ => rfl⟩
    exact (find?_ack.trans (if_neg fun hHere => hOther q hq hHere.1)).symm
  | nak r o =>
    obtain rfl := Option.some.inj ha
    refine ⟨fun q hq o' => Eq.symm (find?_nak.trans ?_), fun _ _ => rfl⟩
    simp only [if_neg fun hHere : q = r ∧ o' = o => hOther q hq hHere.1, Option.map_id']
  | assign | redeliver | commit => cases ha

end Elsewhere

section Swapping

theorem apply_on_of_partition (l : Ledger) (ha : a.partition? = some p) :
    (l.apply a).1.on scope = (l.apply a).1 := by
  cases a with
  | assign | redeliver | commit => cases ha
  | _ => rfl

/-- An operation replies the same whether or not one on another partition came before it. -/
theorem reply_of_elsewhere (hl : l.Reachable) (ha : a.partition? = some p)
    (hb : b.partition? = some q) (hOther : p ≠ q) : (l.apply a).1 = ((l.apply b).2.apply a).1 := by
  have hSame : SameOn (· == p) l (l.apply b).2 :=
    .of_elsewhere hl hb (beq_eq_false_iff_ne.mpr hOther.symm)
  have hStep : StepsAlike (· == p) l (l.apply b).2 a a :=
    .same (by rintro max rfl; cases ha)
  have hOn : a.isOn (· == p) = true := by
    cases a with
    | assign | redeliver | commit => cases ha
    | _ =>
      obtain rfl := Option.some.inj ha
      exact beq_self_eq_true _
  have hReply := hSame.reply hl (hl.apply b) hStep hOn
  rwa [apply_on_of_partition l ha, apply_on_of_partition (l.apply b).2 ha] at hReply

/-- On a partition that the first one leaves alone, two operations have the effect of the second. -/
theorem SameOn.swap (hl : l.Reachable) (ha : a.partition? = some p) (hp : scope p = false)
    (hb : ∀ max, b ≠ .redeliver max) :
    SameOn scope ((l.apply a).2.apply b).2 ((l.apply b).2.apply a).2 := by
  have hFirst : SameOn scope l (l.apply a).2 := .of_elsewhere hl ha hp
  have hSecond : SameOn scope (l.apply b).2 ((l.apply a).2.apply b).2 :=
    hFirst.step hl (hl.apply a) (.same hb)
  exact hSecond.symm.trans (.of_elsewhere (hl.apply b) ha hp)

theorem commute_of_partitions (hl : l.Reachable) (ha : a.partition? = some p)
    (hb : b.partition? = some q) (hOther : p ≠ q) : Commute l a b := by
  have hNotTake : ∀ {op : Op} {r : Int}, op.partition? = some r → ∀ max, op ≠ .redeliver max := by
    rintro _ r hr max rfl
    cases hr
  refine ⟨reply_of_elsewhere hl ha hb hOther, reply_of_elsewhere hl hb ha hOther.symm, fun ops => ?_⟩
  -- Every partition is left alone by one of the two operations.
  refine SameOn.replies (.of_each fun r _ => ?_) ((hl.apply a).apply b) ((hl.apply b).apply a) ops
  by_cases hr : p = r
  · have hq : (q == r) = false := beq_eq_false_iff_ne.mpr fun hq => hOther (hr.trans hq.symm)
    exact (SameOn.swap hl hb hq (hNotTake ha)).symm
  · exact .swap hl ha (beq_eq_false_iff_ne.mpr hr) (hNotTake hb)

/-- To settle a message changes the entry at its place, and tells whether there was one. -/
theorem apply_of_settles {o : Int} (ha : a.settles? = some (p, o)) :
    (∀ l : Ledger, (l.apply a).1 = .wasPending (l.find? p o).isSome ∧
      (l.apply a).2.owned = l.owned) ∧
    ∃ f : Option Entry → Option Entry, ∀ (l : Ledger) q r,
      (l.apply a).2.find? q r = if q = p ∧ r = o then f (l.find? q r) else l.find? q r := by
  cases a with
  | ack r s =>
    obtain ⟨rfl, rfl⟩ := Prod.mk.inj (Option.some.inj ha)
    exact ⟨fun l => ⟨rfl, rfl⟩, fun _ => none, fun l q r => find?_ack⟩
  | nak r s =>
    obtain ⟨rfl, rfl⟩ := Prod.mk.inj (Option.some.inj ha)
    refine ⟨fun l => ⟨rfl, rfl⟩, Option.map fun e => { e with queued := true }, fun l q r => ?_⟩
    change (l.nak _ _).2.find? q r = _
    rw [find?_nak]
    split <;> simp
  | _ => cases ha

theorem commute_of_places {o o' : Int} (hl : l.Reachable) (ha : a.settles? = some (p, o))
    (hb : b.settles? = some (q, o')) (hOther : (p, o) ≠ (q, o')) : Commute l a b := by
  obtain ⟨hA, f, hF⟩ := apply_of_settles ha
  obtain ⟨hB, g, hG⟩ := apply_of_settles hb
  have hApart : ¬ (p = q ∧ o = o') := fun hSame => hOther (Prod.ext hSame.1 hSame.2)
  refine ⟨?_, ?_, fun ops => ?_⟩
  · rw [(hA _).1, (hA _).1, hG, if_neg hApart]
  · rw [(hB _).1, (hB _).1, hF, if_neg fun hSame => hApart ⟨hSame.1.symm, hSame.2.symm⟩]
  · refine SameOn.replies ⟨fun r _ s => ?_, fun r _ => ?_⟩ ((hl.apply a).apply b)
      ((hl.apply b).apply a) ops
    · rw [hG, hF, hF, hG]
      by_cases hHere : r = p ∧ s = o
      · have hThere : ¬ (r = q ∧ s = o') :=
          fun hSame => hApart ⟨hHere.1.symm.trans hSame.1, hHere.2.symm.trans hSame.2⟩
        rw [if_neg hThere, if_neg hThere]
      · rw [if_neg hHere, if_neg hHere]
    · rw [(hB _).2, (hA _).2, (hA _).2, (hB _).2]

end Swapping

section Assigning

/-- Without the assignments, the other operations reply the same. -/
theorem SameOn.replies_of_assign (h : SameOn (fun _ => true) l l') (hl : l.Reachable)
    (hl' : l'.Reachable) (ops : List Op) :
    (ops.zip (l.replies ops)).filter (!·.1.isAssign)
      = (ops.filter (!·.isAssign)).zip (l'.replies (ops.filter (!·.isAssign))) := by
  induction ops generalizing l l' with
  | nil => rfl
  | cons op ops ih =>
    rw [Ledger.replies, List.zip_cons_cons, List.filter_cons, List.filter_cons]
    cases hAssign : op.isAssign with
    | true =>
      cases op with
      | assign p =>
        have hSame : SameOn (fun _ => true) (l.assign p) l' := (SameOn.assigned hl p).symm.trans h
        exact ih hSame (hl.apply (.assign p)) hl'
      | _ => cases hAssign
    | false =>
      have hReplies := h.replies hl hl' [op]
      have hReply : (l.apply op).1 = (l'.apply op).1 := List.head_eq_of_cons_eq hReplies
      have hRest := ih (h.step_everywhere hl hl' op) (hl.apply op) (hl'.apply op)
      simp only [Bool.not_false, if_true, Ledger.replies, List.zip_cons_cons, hReply]
      rw [hRest]

end Assigning

section Revoking

def Reply.handedOut : Reply → Nat
  | .deliveries ds => ds.length
  | _ => 0

theorem revoked_same_as_fresh (l : Ledger) (p : Int) :
    SameOn (· == p) (l.apply (.revoke p)).2 {} := by
  refine ⟨fun q hq o => ?_, fun q hq => ?_⟩
  · obtain rfl := beq_iff_eq.mp hq
    change (l.revoke q).2.find? q o = none
    rw [find?_revoke, if_pos rfl]
  · obtain rfl := beq_iff_eq.mp hq
    exact known_filter_self

/-- After any operations, what is told of a revoked partition is what a fresh ledger tells, and what
is told of the others is what would be told without the revocation: both up to the share of the
redeliveries, which does not matter to the partitions below the revoked one. Assignments change
nothing that is told, and neither does the order of operations on different partitions or of
settlements at different offsets. -/
theorem partitions_are_isolated (ops : List Op) :
    let l := after {} ops
    (∀ p, let r := after {} (ops ++ [.revoke p])
      Indistinct (· == p) r {} ∧
      (∀ scope : Int → Bool, scope p = false → Indistinct scope r l) ∧
      ∀ scope : Int → Bool, (∀ q, scope q = true → q < p) →
        ∀ more, r.results scope more = l.results scope more) ∧
    (ops.zip (replies {} ops)).filter (!·.1.isAssign)
      = (ops.filter (!·.isAssign)).zip (replies {} (ops.filter (!·.isAssign))) ∧
    (∀ a b p q, a.partition? = some p → b.partition? = some q → p ≠ q → Commute l a b) ∧
    ∀ a b p o o', a.settles? = some (p, o) → b.settles? = some (p, o') → o ≠ o' →
      Commute l a b := by
  intro l
  have hl : l.Reachable := Reachable.empty.after ops
  refine ⟨fun p => ?_, (SameOn.refl {}).replies_of_assign .empty .empty ops,
    fun a b p q ha hb => commute_of_partitions hl ha hb, ?_⟩
  · intro r
    have hAfter : r = (l.apply (.revoke p)).2 := after_append {} ops [.revoke p]
    have hr : r.Reachable := hAfter ▸ hl.apply (.revoke p)
    have hElsewhere : ∀ scope : Int → Bool, scope p = false → SameOn scope r l := by
      intro scope hp
      rw [hAfter]
      exact (SameOn.of_elsewhere hl rfl hp).symm
    refine ⟨?_, fun scope hp => (hElsewhere scope hp).indistinct hr hl, fun scope hBelow more => ?_⟩
    · exact (hAfter ▸ revoked_same_as_fresh l p : SameOn (· == p) r {}).indistinct hr .empty
    · -- The partitions below the revoked one are all looked at together: no lower one is missing.
      have hSame : SameOn (fun q => decide (q < p)) r l := hElsewhere _ (by simp)
      have hDown : Downward fun q => decide (q < p) := by
        intro q q' hLe hLess
        exact decide_eq_true (Int.lt_of_le_of_lt hLe (of_decide_eq_true hLess))
      have hNarrow : ∀ q, scope q = true → decide (q < p) = true :=
        fun q hq => decide_eq_true (hBelow q hq)
      exact (hSame.mono hNarrow).results hr hl (hSame.runs_of_downward hr hl hDown hNarrow more)
  · intro a b p o o' ha hb hOther
    exact commute_of_places hl ha hb fun hSame => hOther (Prod.mk.inj hSame).2

/-- An offset that was given back before its partition was revoked is not handed out again after it
was read anew, just as on a fresh ledger, and the order of two settlements does not matter. -/
theorem revoked_partition_begins_anew :
    SharedEqually (· == 0) (after {} [.deliver 0 7 none, .nak 0 7, .revoke 0]) {}
        [.deliver 0 7 none, .redeliver 5] ∧
    (after {} [.deliver 0 7 none, .nak 0 7, .revoke 0]).results (· == 0)
        [.deliver 0 7 none, .redeliver 5]
      = results {} (· == 0) [.deliver 0 7 none, .redeliver 5] ∧
    Commute (after {} [.deliver 0 7 none, .nak 0 7]) (.ack 0 7) (.nak 1 2) := by
  obtain ⟨hRevoked, -, hPartitions, -⟩ := partitions_are_isolated [.deliver 0 7 none, .nak 0 7]
  have hShares : SharedEqually (· == 0) (after {} [.deliver 0 7 none, .nak 0 7, .revoke 0]) {}
      [.deliver 0 7 none, .redeliver 5] := by
    rintro before max ⟨rest, hRest⟩
    match before, hRest with
    | [], hRest => cases hRest
    | [_], hRest =>
      cases hRest
      exact .inr ⟨by decide, by decide⟩
    | _ :: _ :: before, hRest => simp at hRest
  exact ⟨hShares, ((hRevoked 0).1 _).1 hShares,
    hPartitions (.ack 0 7) (.nak 1 2) 0 1 rfl rfl (by decide)⟩

/-- A redelivery that a lower partition has used up hands out nothing of a fresh partition, and it
hands out more of a higher one when the lower one has been revoked. -/
theorem lower_partition_uses_up_limit :
    (after {} [.deliver 0 0 none, .nak 0 0, .revoke 1]).results (· == 1)
        [.deliver 1 5 none, .nak 1 5, .redeliver 1]
      ≠ results {} (· == 1) [.deliver 1 5 none, .nak 1 5, .redeliver 1] ∧
    (after {} [.deliver 0 0 none, .nak 0 0, .deliver 1 5 none, .nak 1 5, .revoke 0]).results (· == 1)
        [.redeliver 1]
      ≠ (after {} [.deliver 0 0 none, .nak 0 0, .deliver 1 5 none, .nak 1 5]).results (· == 1)
        [.redeliver 1] := by
  constructor
  · intro hSame
    have hHandedOut := congrArg (List.map Reply.handedOut) hSame
    revert hHandedOut
    decide
  · intro hSame
    have hHandedOut := congrArg (List.map Reply.handedOut) hSame
    revert hHandedOut
    decide

end Revoking

end EventIngest.Ledger
