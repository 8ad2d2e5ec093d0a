import EventIngest.Proofs.Quiet
import Mathlib.Algebra.GroupWithZero.Nat
/-!
# Draining a log

A worker that finds a log read out and then stops has stored one row of each record with an event
and put aside each other record once, whatever its settings and whenever its store failed.
-/
namespace EventIngest

open Journal

section Counting

variable {α : Type} [BEq α] [LawfulBEq α]

theorem count_flatMap_replicate {ys : List α} (hNodup : ys.Nodup) (n : Nat) (a : α) :
    (ys.flatMap (List.replicate n)).count a = if a ∈ ys then n else 0 := by
  induction ys with
  | nil => rfl
  | cons y ys ih =>
    obtain ⟨hFresh, hRest⟩ := List.nodup_cons.mp hNodup
    rw [List.flatMap_cons, List.count_append, ih hRest, List.count_replicate]
    by_cases hSame : y = a
    · subst hSame
      simp [hFresh]
    · simp [hSame, Ne.symm hSame]

theorem length_eq_of_count {xs ys : List α} (hNodup : ys.Nodup) {n : Nat}
    (h : ∀ a, xs.count a = if a ∈ ys then n else 0) : xs.length = n * ys.length := by
  have hPerm : xs.Perm (ys.flatMap (List.replicate n)) := by
    rw [List.perm_iff_count]
    intro a
    rw [h, count_flatMap_replicate hNodup]
  rw [hPerm.length_eq, List.length_flatMap]
  simp [Nat.mul_comm]

theorem perm_of_count {xs ys : List α} (hNodup : ys.Nodup)
    (h : ∀ a, xs.count a = if a ∈ ys then 1 else 0) : xs.Perm ys := by
  rw [List.perm_iff_count]
  intro a
  rw [h, hNodup.count]

end Counting

theorem filterMap_getElem? {α β : Type} (xs : List α) (f : α → Option β) :
    (List.range xs.length).filterMap (fun i => xs[i]?.bind f) = xs.filterMap f := by
  have hAll : (List.range xs.length).map (xs[·]?) = xs.map some := by
    apply List.ext_getElem?
    intro i
    by_cases hi : i < xs.length <;> simp [hi]
  have hBind := congrArg (List.filterMap (Option.bind · f)) hAll
  rw [List.filterMap_map, List.filterMap_map] at hBind
  exact hBind

namespace Delivery

theorem length_readings (ds : List Delivery) :
    (ds.filterMap parcel?).length + (ds.filterMap refusal?).length = ds.length := by
  have hLength := (handles_perm ds).length_eq
  simpa [Batch.handles] using hLength

end Delivery

theorem length_filter_le_flatten {α : Type} (xss : List (List α)) :
    (xss.filter (!·.isEmpty)).length ≤ xss.flatten.length := by
  induction xss with
  | nil => exact Nat.le_refl _
  | cons xs xss ih =>
    rw [List.flatten_cons, List.length_append, List.filter_cons]
    cases xs with
    | nil => exact Nat.le_trans ih (Nat.le_add_left _ _)
    | cons x xs =>
      simp only [List.isEmpty_cons, Bool.not_false, if_true, List.length_cons]
      omega

def Happening.isFailedInsert : Happening → Bool
  | .inserted _ (.error _) => true
  | _ => false

namespace Deed

variable {deeds : List Deed}

theorem allArrivals_eq_flatten (deeds : List Deed) :
    allArrivals deeds = (deeds.filterMap received?).flatten := by
  induction deeds with
  | nil => rfl
  | cons d deeds ih =>
    rw [allArrivals, List.flatMap_cons, ← allArrivals, ih]
    cases d <;> simp [arrivals, received?, List.filterMap_cons]

/-- When no batch is given back, all that were settled are stored. -/
theorem allBatches_eq_stored (h : ∀ d ∈ deeds, d.failedSize? = none) :
    allBatches deeds = (storedBatches deeds).flatten := by
  induction deeds with
  | nil => rfl
  | cons d deeds ih =>
    obtain ⟨hHere, hRest⟩ := List.forall_mem_cons.mp h
    rw [allBatches, List.flatMap_cons, ← allBatches, ih hRest]
    cases d with
    | giveUp parcels failures answer => cases hHere
    | _ => simp [batch, storedBatches, storedBatch?, List.filterMap_cons]

theorem flatMap_putAside {settings : WorkerSettings}
    (hAllows : ∀ d ∈ deeds, Custody.Allows settings d)
    (hLetters : ∀ d ∈ deeds, ∀ call ∈ d.calls, call.isFailedLetter = false) :
    deeds.flatMap putAside = ((allRefusals deeds).filter fun r =>
      Desk.isSpent settings.maxDeliver r.1).map (·.1.offset) := by
  induction deeds with
  | nil => rfl
  | cons d deeds ih =>
    obtain ⟨hHere, hRest⟩ := List.forall_mem_cons.mp hAllows
    obtain ⟨hLetter, hOthers⟩ := List.forall_mem_cons.mp hLetters
    rw [List.flatMap_cons, ih hRest hOthers, allRefusals_cons, List.filter_append, List.map_append]
    congr 1
    cases d with
    | reject handle m letter answer =>
      have hSpent : letter.isSome = Desk.isSpent settings.maxDeliver handle := hHere
      rcases letter with _ | _ | _
      · simp [putAside, refusal?, ← hSpent]
      · cases hLetter _ List.mem_cons_self
      · simp [putAside, refusal?, ← hSpent]
    | _ => rfl

/-- A batch is given back only after an insert has failed. -/
theorem kept_of_stored {settings : WorkerSettings} {d : Deed} (hAllows : Custody.Allows settings d)
    (h : ∀ call ∈ d.calls, call.isFailedInsert = false) : d.failedSize? = none := by
  cases d with
  | giveUp parcels failures answer =>
    have hLength : failures.length = settings.retry.maxAttempts := hAllows
    have hPos := Worker.maxAttempts_pos settings.retry
    cases failures with
    | nil =>
      simp only [List.length_nil] at hLength
      omega
    | cons e es => cases h _ (List.mem_cons_of_mem _ List.mem_cons_self)
  | _ => rfl

/-- What was acknowledged was stored or put aside. -/
theorem IsAcked.cases {o : Int} (h : IsAcked deeds o) :
    (∃ p ∈ (storedBatches deeds).flatten, p.handle.offset = o) ∨
    ∃ handle m u answer, reject handle m (some (.ok u)) answer ∈ deeds ∧ handle.offset = o := by
  obtain ⟨d, hd, handle, hHandle, rfl⟩ := h
  match d with
  | .store parcels failures answer =>
    obtain ⟨p, u, hp, rfl⟩ := mem_answered.mp hHandle
    have hStored : batchOf parcels ∈ storedBatches deeds := List.mem_filterMap.mpr ⟨_, hd, rfl⟩
    exact .inl ⟨p, List.mem_flatten_of_mem hStored (List.mem_map_of_mem hp), rfl⟩
  | .reject handle' m (some (.ok u)) (.ok u') =>
    obtain rfl := List.mem_singleton.mp hHandle
    exact .inr ⟨handle, m, u, .ok u', hd, rfl⟩
  | .reject _ _ none _ | .reject _ _ (some (.error _)) _ | .reject _ _ (some (.ok _)) (.error _)
  | .giveUp .. | .ask .. | .receive _ | .miss _ | .stall | .accept _ | .commit _ =>
    exact absurd hHandle List.not_mem_nil

end Deed

namespace Log

open Deed Ledger

def row? (raw : List UInt8) : Option Row :=
  match Event.ofBytes raw with
  | .ok event => some (.ofEvent event)
  | .error _ => none

section Records

variable (l : Log)

/-- One row of each record that holds an event. -/
def rows : List Row := l.records.toList.filterMap row?

def offsets : List Int := (List.range l.records.size).map Int.ofNat

def rowAt (o : Int) : Option Row := l.records[o.toNat]?.bind row?

def undecodable : List Int := l.offsets.filter fun o => (l.rowAt o).isNone

variable {l}

theorem mem_offsets {o : Int} : o ∈ l.offsets ↔ 0 ≤ o ∧ o.toNat < l.records.size := by
  simp only [offsets, List.mem_map, List.mem_range]
  constructor
  · rintro ⟨i, hi, rfl⟩
    exact ⟨Int.natCast_nonneg i, hi⟩
  · rintro ⟨hPos, hLess⟩
    exact ⟨o.toNat, hLess, Int.toNat_of_nonneg hPos⟩

theorem nodup_offsets : l.offsets.Nodup := by
  rw [offsets, List.Nodup, List.pairwise_map]
  exact List.nodup_range.imp fun hNe hSame => hNe (Int.ofNat.inj hSame)

theorem filterMap_rowAt : l.offsets.filterMap l.rowAt = l.rows := by
  rw [offsets, List.filterMap_map, rows, ← filterMap_getElem? l.records.toList]
  simp only [Array.getElem?_toList, Array.length_toList]
  rfl

theorem rowAt_parcel {p : Parcel} (h : p.IsFrom l.book) :
    p.handle.offset ∈ l.offsets ∧ l.rowAt p.handle.offset = some (.ofEvent p.event) := by
  obtain ⟨raw, hRaw, hEvent⟩ := h
  obtain ⟨⟨-, hPos⟩, hRecord⟩ := book_eq_some.mp hRaw
  refine ⟨mem_offsets.mpr ⟨hPos, (Array.getElem?_eq_some_iff.mp hRecord).1⟩, ?_⟩
  simp [rowAt, hRecord, row?, hEvent]

theorem filterMap_offsets {b : Batch} (h : ∀ p ∈ b, p.IsFrom l.book) :
    b.offsets.filterMap l.rowAt = b.rows := by
  induction b with
  | nil => rfl
  | cons p ps ih =>
    obtain ⟨hHere, hRest⟩ := List.forall_mem_cons.mp h
    rw [Batch.offsets, List.map_cons, List.filterMap_cons_some (rowAt_parcel hHere).2,
      ← Batch.offsets, ih hRest]
    rfl

theorem rowAt_malformed {handle : Handle} {m : Malformed} (h : m.IsFrom l.book handle) :
    handle.offset ∈ l.offsets ∧ l.rowAt handle.offset = none := by
  obtain ⟨⟨-, hPos⟩, hRecord⟩ := book_eq_some.mp h.1
  refine ⟨mem_offsets.mpr ⟨hPos, (Array.getElem?_eq_some_iff.mp hRecord).1⟩, ?_⟩
  simp [rowAt, hRecord, row?, h.2]

theorem undecodable_of_malformed {handle : Handle} {m : Malformed} (h : m.IsFrom l.book handle) :
    handle.offset ∈ l.undecodable := by
  obtain ⟨hOffset, hNone⟩ := rowAt_malformed h
  exact List.mem_filter.mpr ⟨hOffset, by simp [hNone]⟩

theorem mem_undecodable {o : Int} : o ∈ l.undecodable ↔ ∃ m, l.Undecodable o m := by
  rw [undecodable, List.mem_filter]
  constructor
  · rintro ⟨hOffset, hNone⟩
    obtain ⟨hPos, hLess⟩ := mem_offsets.mp hOffset
    have hRecord := Array.getElem?_eq_getElem hLess
    simp only [rowAt, hRecord, Option.bind_some, row?] at hNone
    split at hNone
    · cases hNone
    · rename_i reason hReason
      exact ⟨⟨_, reason⟩, book_eq_some.mpr ⟨⟨rfl, hPos⟩, hRecord⟩, hReason⟩
  · rintro ⟨m, hm⟩
    exact List.mem_filter.mp (undecodable_of_malformed hm)

theorem undecodable_eq {l' : Log} (h : l'.records = l.records) :
    l'.undecodable = l.undecodable := by
  rw [undecodable, undecodable, offsets, offsets, h]
  simp only [rowAt, h]

theorem nodup_undecodable : l.undecodable.Nodup := nodup_offsets.filter _

end Records

/-- The worker has stopped, and nothing of the log is left. -/
structure Finished (settings : WorkerSettings) (l : Log) (c : Custody Waiting)
    (deeds : List Deed) : Prop where
  shown : l.Shown settings c deeds
  calm : ∀ d ∈ deeds, d.IsCalm
  limit : settings.maxDeliver ≠ 0
  read : l.position = l.records.size
  pending : l.ledger.pending = []
  held : c.held = []
  coming : c.coming = []
  owing : c.owing = false

namespace Finished

variable {settings : WorkerSettings} {l : Log} {c : Custody Waiting} {deeds : List Deed}
  (h : l.Finished settings c deeds)

include h

theorem acked {o : Int} (ho : o ∈ l.offsets) : IsAcked deeds o := by
  obtain ⟨hPos, hLess⟩ := mem_offsets.mp ho
  rw [← Int.toNat_of_nonneg hPos]
  refine (h.shown.covered.read o.toNat (h.read ▸ hLess)).resolve_left fun hPending => ?_
  rw [pendingOffsets, h.pending] at hPending
  exact List.not_mem_nil hPending

theorem committed : l.committed = l.records.size := by
  rw [h.shown.committed h.calm h.owing, frontier, h.pending, ← h.read]
  rfl

/-- A record with an event was acknowledged with a batch that was stored. -/
theorem mem_stored {o : Int} :
    o ∈ Batch.offsets (storedBatches deeds).flatten ↔ o ∈ l.offsets ∧ (l.rowAt o).isSome := by
  constructor
  · intro ho
    obtain ⟨p, hp, rfl⟩ := List.mem_map.mp ho
    have hFrom := h.shown.followed.inStep.faithful.batches p (mem_allBatches_of_stored hp)
    obtain ⟨hOffset, hRow⟩ := rowAt_parcel hFrom
    exact ⟨hOffset, hRow ▸ rfl⟩
  · rintro ⟨hOffset, hRow⟩
    obtain ⟨p, hp, rfl⟩ | ⟨handle, m, u, answer, hd, rfl⟩ := (h.acked hOffset).cases
    · exact List.mem_map_of_mem hp
    · have hFrom := h.shown.followed.inStep.faithful.refusals (handle, m)
        (List.mem_filterMap.mpr ⟨_, hd, rfl⟩)
      rw [(rowAt_malformed hFrom).2] at hRow
      cases hRow

theorem stored_perm : ((storedBatches deeds).map Batch.rows).flatten.Perm l.rows := by
  have hInStep := h.shown.followed.inStep
  have hRows : ((storedBatches deeds).map Batch.rows).flatten
      = (Batch.offsets (storedBatches deeds).flatten).filterMap l.rowAt := by
    rw [filterMap_offsets fun p hp => hInStep.faithful.batches p (mem_allBatches_of_stored hp)]
    exact List.map_flatten.symm
  have hOffsets : (Batch.offsets (storedBatches deeds).flatten).Perm
      (l.offsets.filter fun o => (l.rowAt o).isSome) := by
    refine (List.perm_ext_iff_of_nodup hInStep.storedOnce (nodup_offsets.filter _)).mpr fun o => ?_
    rw [h.mem_stored, List.mem_filter]
  rw [hRows, ← filterMap_rowAt]
  refine (hOffsets.filterMap _).trans (.of_eq ?_)
  rw [List.filterMap_filter]
  refine congrArg (List.filterMap · _) (funext fun o => ?_)
  cases l.rowAt o <;> rfl

/-- A record without an event was rejected as often as it may be handed out. -/
theorem rejections {o : Int} {m : Malformed} (hm : l.Undecodable o m) :
    (allRefusals deeds).filter (·.1.offset == o)
      = (handOuts o 1 settings.maxDeliver).map fun h => (h, m) := by
  obtain ⟨n, k, -, hRefusals, ⟨hLe, -⟩, -, hMost⟩ := h.shown.followed.rejections hm
  have hAll : k = settings.maxDeliver := by
    refine Nat.le_antisymm (Nat.le_trans hLe (hMost h.limit fun d hd => (h.calm d hd).letters)) ?_
    have hOffset : o ∈ l.offsets := (rowAt_malformed hm).1
    obtain ⟨p, hp, hParcel⟩ | ⟨handle, m', u, answer, hd, hHandle⟩ := (h.acked hOffset).cases
    · have hFrom := h.shown.followed.inStep.faithful.batches p (mem_allBatches_of_stored hp)
      exact absurd hParcel (hm.not_parcel hFrom)
    · -- The rejection that was acknowledged is of a hand-out that reached the limit.
      have hSpent : Desk.isSpent settings.maxDeliver handle = true :=
        (h.shown.followed.allows _ hd).symm
      have hRefused : (handle, m') ∈ (allRefusals deeds).filter (·.1.offset == o) :=
        List.mem_filter.mpr ⟨List.mem_filterMap.mpr ⟨_, hd, rfl⟩, by simp [hHandle]⟩
      rw [hRefusals] at hRefused
      obtain ⟨handle', hIn, hSame⟩ := List.mem_map.mp hRefused
      obtain ⟨rfl, -⟩ := Prod.mk.inj hSame
      have hCount := (mem_handOuts.mp hIn).2.2.2
      simp only [Desk.isSpent, decide_eq_true_eq] at hSpent
      omega
  rw [hRefusals, hAll]

theorem rejections_nil {o : Int} (ho : o ∉ l.undecodable) :
    (allRefusals deeds).filter (·.1.offset == o) = [] := by
  refine List.filter_eq_nil_iff.mpr fun r hr hOffset => ho ?_
  rw [← beq_iff_eq.mp hOffset]
  exact undecodable_of_malformed (h.shown.followed.inStep.faithful.refusals r hr)

/-- Of the rejections that pass a test, each undecodable record has those of its hand-outs. -/
theorem count_rejections (p : Handle → Bool) (o : Int) :
    (((allRefusals deeds).filter fun r => p r.1).map (·.1.offset)).count o
      = if o ∈ l.undecodable then ((handOuts o 1 settings.maxDeliver).filter p).length else 0 := by
  have hCount : (((allRefusals deeds).filter fun r => p r.1).map (·.1.offset)).count o
      = (((allRefusals deeds).filter (·.1.offset == o)).filter fun r => p r.1).length := by
    rw [List.count, List.countP_map, List.countP_eq_length_filter, List.filter_filter,
      List.filter_filter]
    simp only [Function.comp_apply, Bool.and_comm]
  rw [hCount]
  split
  · rename_i ho
    obtain ⟨m, hm⟩ := mem_undecodable.mp ho
    rw [h.rejections hm, List.filter_map, List.length_map]
    rfl
  · rename_i ho
    rw [h.rejections_nil ho]
    rfl

theorem length_refusals :
    (allRefusals deeds).length = settings.maxDeliver * l.undecodable.length := by
  have hCount := h.count_rejections fun _ => true
  simp only [List.filter_true, length_handOuts] at hCount
  rw [← List.length_map (·.1.offset)]
  exact length_eq_of_count nodup_undecodable hCount

theorem aside_perm : l.deadLettered.toList.Perm l.undecodable := by
  have hAside : deeds.flatMap putAside = ((allRefusals deeds).filter fun r =>
      Desk.isSpent settings.maxDeliver r.1).map (·.1.offset) :=
    flatMap_putAside h.shown.followed.allows fun d hd => (h.calm d hd).letters
  rw [h.shown.aside, hAside]
  refine perm_of_count nodup_undecodable fun o => ?_
  -- A record is put aside at the last of its hand-outs.
  have hBelow : (handOuts o 1 (settings.maxDeliver - 1)).filter (Desk.isSpent settings.maxDeliver)
      = [] := by
    refine List.filter_eq_nil_iff.mpr fun handle hHandle => ?_
    rw [unspent_of_mem_handOuts (Nat.pred_lt h.limit) hHandle]
    exact Bool.false_ne_true
  rw [h.count_rejections, handOuts_eq_append h.limit, List.filter_append, hBelow,
    List.filter_cons, if_pos (isSpent_last h.limit)]
  rfl

/-- When no batch is given back, each record with an event arrives once. -/
theorem length_fetches (hKept : ∀ d ∈ deeds, d.failedSize? = none) :
    ((deeds.filterMap received?).filter (!·.isEmpty)).length
      ≤ l.rows.length + settings.maxDeliver * l.undecodable.length := by
  obtain ⟨hParcels, hRefusals, -⟩ := h.shown.followed.accounted
  rw [h.held, h.coming, List.append_nil, allBatches_eq_stored hKept] at hParcels
  rw [h.coming] at hRefusals
  have hStored : (storedBatches deeds).flatten.length = l.rows.length := by
    rw [← h.stored_perm.length_eq, ← List.length_map fun p : Parcel => Row.ofEvent p.event,
      List.map_flatten]
    rfl
  calc
    _ ≤ (allArrivals deeds).length := by
      rw [allArrivals_eq_flatten]
      exact length_filter_le_flatten _
    _ = ((allArrivals deeds).filterMap Delivery.parcel?).length
        + ((allArrivals deeds).filterMap Delivery.refusal?).length :=
      (Delivery.length_readings _).symm
    _ = l.rows.length + settings.maxDeliver * l.undecodable.length := by
      rw [hParcels, hRefusals, ← h.length_refusals, ← hStored]
      simp

end Finished

section Courses

open Worker Course

/-- A worker over a log, from its start on: until a fetch is about to end, and after it. -/
structure Session (γ τ ψ : Type) where
  settings : WorkerSettings
  guard : Guard γ
  store : Store τ ψ
  guarding : γ
  storing : τ
  records : Array (List UInt8)
  before : List (Turn (List UInt8) τ)
  now : Instant
  after : List (Turn (List UInt8) τ)

namespace Session

variable {γ τ ψ γ' τ' ψ' : Type} (r : Session γ τ ψ)

def setup : Setup (γ × Log) τ Waiting ψ := ⟨r.settings, source.guarded r.guard, r.store⟩

def asking : Course (γ × Log) τ Waiting ψ :=
  run r.setup (behind append) r.before
    (start r.settings (r.guarding, { records := r.records }) r.storing)

def answered : Course (γ × Log) τ Waiting ψ := r.asking.turn r.setup (behind append) (.work r.now)

def ended : Course (γ × Log) τ Waiting ψ := run r.setup (behind append) r.after r.answered

def log : Log := r.ended.scene.source.2

/-- The fetch brings nothing, after the last record was appended. From then on no batch is given
back, and the worker stops in the end. No call that settles messages fails. -/
structure Drains : Prop where
  room : 0 < r.settings.batchSize
  limit : r.settings.maxDeliver ≠ 0
  alone : ∀ counters, .counters counters ∉ r.before ++ r.after
  calm : ∀ call ∈ r.ended.journal, call.isFailedCall = false
  nothing : fetches r.answered.journal = fetches r.asking.journal ++ [[]]
  complete : ∀ record, .outside record ∉ r.after
  kept : failedSizes r.ended.journal = failedSizes r.answered.journal
  stopped : r.ended.scene.worker.phase = .stopped

/-- All of the log is read and committed, each record with an event is stored once, and each other
record was handed out as often as it may be and was put aside once. -/
structure IsDrained : Prop where
  committed : r.log.committed = r.log.records.size
  reads : r.log.reads = r.log.records.size
  stored : (stored r.ended.journal).flatten.Perm r.log.rows
  aside : r.log.deadLettered.toList.Perm r.log.undecodable
  errors : r.ended.scene.counters.errors = UInt64.ofNat
    (r.settings.maxDeliver * r.log.undecodable.length + (failedSizes r.ended.journal).sum)
  fetches : (∀ call ∈ r.ended.journal, call.isFailedInsert = false) →
    ((fetches r.ended.journal).filter (!·.isEmpty)).length
      ≤ r.log.rows.length + r.settings.maxDeliver * r.log.undecodable.length

variable {r}

/-- The fetch shows that the log is read out. -/
theorem Drains.answered_quiet (h : r.Drains) : ∃ deeds, Told r.settings r.answered deeds ∧
    r.answered.scene.source.2.Shown r.settings r.answered.scene.worker.custody deeds ∧
    ((∀ d ∈ deeds, d.IsThrough) →
      r.answered.scene.source.2.Quiet r.answered.scene.worker.custody) := by
  obtain ⟨deeds, hTold, hShown⟩ : ∃ deeds, Told r.settings r.asking deeds ∧
      r.asking.scene.source.2.Shown r.settings r.asking.scene.worker.custody deeds := by
    refine run_told r.setup (behind append)
      (I := fun c (s : γ × Log) deeds => s.2.Shown r.settings c deeds)
      (fun h hMove => h.move hMove) (fun counters hIn => ?_) (fun record _ h => h.append record)
      (told_start r.settings _ _) (.start r.settings r.records)
    exact h.alone counters (List.mem_append_left _ hIn)
  obtain ⟨new, hNew, hMove | ⟨-, -, record, hNone, -⟩⟩ :=
    hTold.turn r.setup (behind append) (t := .work r.now) nofun
  · refine ⟨deeds ++ new, hNew, hShown.move hMove, fun hThrough => ?_⟩
    refine hShown.quiet_of_nothing_fetched h.room hMove ?_ hThrough
    have hNothing : fetches (r.asking.turn r.setup (behind append) (.work r.now)).journal
        = fetches r.asking.journal ++ [[]] := h.nothing
    rw [hNew.chronicle.fetches_eq, hTold.chronicle.fetches_eq, List.filterMap_append,
      List.append_cancel_left_eq] at hNothing
    rw [hNothing]
    exact List.mem_singleton_self _
  · cases hNone

theorem ended_eq : r.ended = run r.setup (behind append) (r.before ++ .work r.now :: r.after)
    (start r.settings (r.guarding, { records := r.records }) r.storing) := by
  rw [run_append]
  rfl

theorem Drains.finished (h : r.Drains) : ∃ deeds, Told r.settings r.ended deeds ∧
    r.log.Finished r.settings r.ended.scene.worker.custody deeds := by
  obtain ⟨deeds, hTold, hShown, hQuiet⟩ := h.answered_quiet
  obtain ⟨all, hEnded, hEndShown, more, rfl, hStaysQuiet⟩ : ∃ all, Told r.settings r.ended all ∧
      r.log.Shown r.settings r.ended.scene.worker.custody all ∧
      ∃ more, all = deeds ++ more ∧ ((∀ d ∈ all, d.IsThrough) →
        (∀ d ∈ more, d.failedSize? = none) → r.log.Quiet r.ended.scene.worker.custody) := by
    refine run_told r.setup (behind append)
      (I := fun c (s : γ × Log) all => s.2.Shown r.settings c all ∧
        ∃ more, all = deeds ++ more ∧ ((∀ d ∈ all, d.IsThrough) →
          (∀ d ∈ more, d.failedSize? = none) → s.2.Quiet c))
      ?_ (fun counters hIn => ?_) (fun record hIn _ => absurd hIn (h.complete record)) hTold
      ⟨hShown, [], (List.append_nil deeds).symm, fun hThrough _ => hQuiet hThrough⟩
    · rintro c s all new c' s' ⟨hBefore, more, rfl, hHere⟩ hMove
      refine ⟨hBefore.move hMove, more ++ new, List.append_assoc .., fun hThrough hKept => ?_⟩
      obtain ⟨hThroughBefore, hThroughNew⟩ := List.forall_mem_append.mp hThrough
      obtain ⟨hKeptBefore, hKeptNew⟩ := List.forall_mem_append.mp hKept
      have hInStep := hBefore.followed.inStep
      exact (hHere hThroughBefore hKeptBefore).serves hInStep.sound
        (move_serves r.guard hInStep.sound hInStep.faithful hMove) hThroughNew hKeptNew
    · exact h.alone counters (List.mem_append_right _ hIn)
  have hCalm : ∀ d ∈ deeds ++ more, d.IsCalm :=
    fun d hd call hCall => h.calm call (hEnded.chronicle.mem_journal hd hCall)
  have hKept := h.kept
  rw [hEnded.failedSizes, hTold.failedSizes, List.filterMap_append,
    List.append_right_eq_self] at hKept
  have hEndQuiet := hStaysQuiet (fun d hd => (hCalm d hd).isThrough)
    (List.filterMap_eq_nil_iff.mp hKept)
  have hTidy : r.ended.scene.worker.Tidy := ended_eq ▸ run_tidy ..
  have hCustody : r.ended.scene.worker.custody = { leaving := true } := by
    simpa [custody, h.stopped, Tidy] using hTidy
  have hOpen : openOffsets r.log.ledger.pending = [] := by
    refine List.eq_nil_iff_forall_not_mem.mpr fun o ho => ?_
    have hHeld := hEndQuiet.opened o ho
    rw [hCustody] at hHeld
    exact List.not_mem_nil hHeld
  have hPending : r.log.ledger.pending = [] := by
    have hOffsets := offsets_perm r.log.ledger.pending
    rw [hOpen, hEndQuiet.queued] at hOffsets
    exact List.map_eq_nil_iff.mp (List.nil_perm.mp hOffsets)
  refine ⟨_, hEnded, hEndShown, hCalm, h.limit, hEndQuiet.read, hPending, ?_, ?_, ?_⟩ <;>
    rw [hCustody]

theorem Drains.isDrained (h : r.Drains) : r.IsDrained := by
  obtain ⟨deeds, hTold, hFinished⟩ := h.finished
  have hStored : (Journal.stored r.ended.journal).flatten.Perm r.log.rows := by
    rw [hTold.chronicle.stored_eq]
    exact hFinished.stored_perm
  refine ⟨hFinished.committed, ?_, hStored, hFinished.aside_perm, ?_, fun hStores => ?_⟩
  · rw [hFinished.shown.followed.inStep.reads, hFinished.read]
  · rw [hTold.counters, errors_tally, hFinished.length_refusals, hTold.failedSizes]
    exact UInt64.zero_add _
  · rw [hTold.chronicle.fetches_eq]
    refine hFinished.length_fetches fun d hd => ?_
    exact kept_of_stored (hFinished.shown.followed.allows d hd) fun call hCall =>
      hStores call (hTold.chronicle.mem_journal hd hCall)

end Session

/-- A worker that finds its log read out, gives no batch back after that and stops has drained the
log. Any two such runs over the same log store the same rows and put the same records aside,
whatever their settings and whatever inserts fail. -/
theorem drained_on_any_schedule {γ τ ψ γ' τ' ψ' : Type} (r : Session γ τ ψ)
    (r' : Session γ' τ' ψ') (h : r.Drains) (h' : r'.Drains) :
    r.IsDrained ∧ (r.log.records = r'.log.records →
      (stored r.ended.journal).flatten.Perm (stored r'.ended.journal).flatten ∧
      r.log.deadLettered.toList.Perm r'.log.deadLettered.toList) := by
  have hHere := h.isDrained
  have hThere := h'.isDrained
  refine ⟨hHere, fun hRecords => ⟨?_, ?_⟩⟩
  · refine hHere.stored.trans (.trans (.of_eq ?_) hThere.stored.symm)
    rw [rows, hRecords, rows]
  · exact hHere.aside.trans (.trans (.of_eq (undecodable_eq hRecords)) hThere.aside.symm)

/-- An event, a record without bytes and an event. The first batch of two is given back. -/
def inSmallBatches : Session Unit PlannedStore (Option StoreError) where
  settings := { batchSize := 2, maxDeliver := 2, retry := { maxRetries := 0 } }
  guard := Guard.free
  store := PlannedStore.store
  guarding := ()
  storing := { refusals := 1 }
  records := #[[123, 125], [], [123, 125]]
  before := List.replicate 18 (.work 0)
  now := .ofSeconds 1
  after := .cancel :: List.replicate 4 (.work (.ofSeconds 1))

/-- The same log, of which the last record is appended while the worker waits. -/
def inOneBatch : Session Unit PlannedStore (Option StoreError) where
  settings := { batchSize := 5, maxDeliver := 1 }
  guard := Guard.free
  store := PlannedStore.store
  guarding := ()
  storing := {}
  records := #[[123, 125], []]
  before := [.work 0, .work 0, .outside [123, 125]] ++ List.replicate 6 (.work (.ofSeconds 1))
  now := .ofSeconds 2
  after := .cancel :: List.replicate 6 (.work (.ofSeconds 2))

theorem small_batches_drain : inSmallBatches.Drains where
  room := by decide
  limit := by decide
  alone := by simp [inSmallBatches]
  calm := by decide +kernel
  nothing := by rfl
  complete := by simp [inSmallBatches]
  kept := by decide +kernel
  stopped := by rfl

theorem one_batch_drains : inOneBatch.Drains where
  room := by decide
  limit := by decide
  alone := by simp [inOneBatch]
  calm := by decide +kernel
  nothing := by rfl
  complete := by simp [inOneBatch]
  kept := by decide +kernel
  stopped := by rfl

theorem drained_in_either_size :
    failedSizes inSmallBatches.ended.journal = [2] ∧ inSmallBatches.IsDrained ∧
    (stored inSmallBatches.ended.journal).flatten.Perm (stored inOneBatch.ended.journal).flatten ∧
    inSmallBatches.log.deadLettered.toList.Perm inOneBatch.log.deadLettered.toList := by
  have hSizes : failedSizes inSmallBatches.ended.journal = [2] := by decide +kernel
  have hRecords : inSmallBatches.log.records = inOneBatch.log.records := by decide +kernel
  obtain ⟨hDrained, hSame⟩ := drained_on_any_schedule inSmallBatches inOneBatch small_batches_drain
    one_batch_drains
  exact ⟨hSizes, hDrained, hSame hRecords⟩

end Courses

end Log

end EventIngest
