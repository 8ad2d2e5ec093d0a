import EventIngest.Proofs.Balance
import EventIngest.Proofs.Conserved
/-!
# What a pool counts

The workers of a pool count together. Whatever the sources and the store answer and in whatever order
the workers move, the counters are those of all deeds that were done, and what arrived is what was
stored, what failed, and what some worker still has.
-/
namespace EventIngest

open Deed Journal

namespace Custody

variable {σ φ : Type}

def heldCount (c : Custody φ) : Nat := c.held.length

def comingCount (c : Custody φ) : Nat := (c.coming.filterMap Delivery.parcel?).length

def refusedCount (c : Custody φ) : Nat := (c.coming.filterMap Delivery.refusal?).length

theorem Move.counts {intake : Source σ φ} {settings : WorkerSettings} {c c' : Custody φ} {s s' : σ}
    {new : List Deed} (h : Move intake settings c s new c' s') :
    c.comingCount + ((allArrivals new).filterMap Delivery.parcel?).length
      = (allAccepted new).length + c'.comingCount ∧
    c.heldCount + (allAccepted new).length = (allBatches new).length + c'.heldCount ∧
    c.refusedCount + ((allArrivals new).filterMap Delivery.refusal?).length
      = (allRefusals new).length + c'.refusedCount := by
  have hAccepted := congrArg List.length h.accepted_eq
  have hHeld := congrArg List.length h.held_eq
  have hRefused := congrArg List.length h.refusals_eq
  simp only [List.filterMap_append, List.length_append] at hAccepted hHeld hRefused
  exact ⟨hAccepted, hHeld, hRefused⟩

end Custody

namespace Pool

open Custody
open Worker (idle Chronicle)

variable {α σ ρ τ φ ψ : Type}

theorem sum_map_set {β : Type} (xs : List β) (f : β → Nat) {i : Nat} {x : β} (h : xs[i]? = some x)
    (y : β) : ((xs.set i y).map f).sum + f x = (xs.map f).sum + f y := by
  induction xs generalizing i with
  | nil => cases h
  | cons z xs ih =>
    cases i with
    | zero =>
      obtain rfl := Option.some.inj h
      simp only [List.set_cons_zero, List.map_cons, List.sum_cons]
      omega
    | succ i =>
      have hRest := ih (i := i) h
      simp only [List.set_cons_succ, List.map_cons, List.sum_cons]
      omega

def happenings (journal : List Event) : List Happening := journal.map (·.happening)

/-- What all workers together have of something that each has in its custody. -/
def total (f : Custody φ → Nat) (p : Pool σ τ φ ψ) : Nat := (p.workers.map (f ·.custody)).sum

/-- All deeds of the workers of a pool. They account for the journal and the counters, and with what
the workers have for all that arrived. -/
structure Tallied (settings : WorkerSettings) (p : Pool σ τ φ ψ) (journal : List Happening)
    (deeds : List Deed) : Prop where
  chronicles : ∀ w ∈ p.workers, ∃ journal deeds, Chronicle settings w journal deeds
  counters : p.counters = deeds.foldl tally {}
  arrivals : Journal.arrivals journal = allArrivals deeds
  stored : Journal.stored journal = (storedBatches deeds).map Batch.rows
  failed : failedSizes journal = deeds.filterMap failedSize?
  accepted : ((allArrivals deeds).filterMap Delivery.parcel?).length
    = (allAccepted deeds).length + p.total comingCount
  held : (allAccepted deeds).length = (allBatches deeds).length + p.total heldCount
  refused : ((allArrivals deeds).filterMap Delivery.refusal?).length
    = (allRefusals deeds).length + p.total refusedCount

namespace Tallied

variable {settings : WorkerSettings} {p p' : Pool σ τ φ ψ} {journal : List Happening}
  {deeds : List Deed}

theorem start (settings : WorkerSettings) (source : σ) (store : τ) :
    Tallied settings (Pool.start source store : Pool σ τ φ ψ) [] [] :=
  ⟨List.forall_mem_nil _, rfl, rfl, rfl, rfl, rfl, rfl, rfl⟩

/-- What a pool does by itself changes nothing. -/
theorem keep (h : Tallied settings p journal deeds) {new : List Happening}
    (hWorkers : p'.workers = p.workers) (hCounters : p'.counters = p.counters)
    (hNew : ∀ e ∈ new, e.deliveries = [] ∧ e.storedRows? = none ∧ e.failedSize? = none) :
    Tallied settings p' (journal ++ new) deeds where
  chronicles := hWorkers ▸ h.chronicles
  counters := hCounters ▸ h.counters
  arrivals := by
    have hNone : Journal.arrivals new = [] := List.flatMap_eq_nil_iff.mpr fun e he => (hNew e he).1
    rw [arrivals_append, hNone, List.append_nil, h.arrivals]
  stored := by
    have hNone : Journal.stored new = [] := List.filterMap_eq_nil_iff.mpr fun e he => (hNew e he).2.1
    rw [stored_append, hNone, List.append_nil, h.stored]
  failed := by
    have hNone : failedSizes new = [] := List.filterMap_eq_nil_iff.mpr fun e he => (hNew e he).2.2
    rw [failedSizes_append, hNone, List.append_nil, h.failed]
  accepted := by
    rw [total, hWorkers]
    exact h.accepted
  held := by
    rw [total, hWorkers]
    exact h.held
  refused := by
    rw [total, hWorkers]
    exact h.refused

theorem hire (h : Tallied settings p journal deeds) (now : Instant) (status : PoolStatus) :
    Tallied settings { p with workers := p.workers ++ [idle settings now], status } journal
      deeds where
  chronicles w hw := by
    obtain hOld | hNew := List.mem_append.mp hw
    · exact h.chronicles w hOld
    · obtain rfl := List.mem_singleton.mp hNew
      exact ⟨[], [], Worker.chronicle_idle settings now⟩
  counters := h.counters
  arrivals := h.arrivals
  stored := h.stored
  failed := h.failed
  accepted := by simpa [total, idle, Worker.custody, comingCount] using h.accepted
  held := by
    simpa [total, idle, Worker.custody, heldCount, Buffer.start] using h.held
  refused := by simpa [total, idle, Worker.custody, refusedCount] using h.refused

/-- What a worker does is added to what was done before. -/
theorem work (setup : Setup σ τ φ ψ) (h : Tallied setup.settings p journal deeds) (now : Instant)
    {i : Nat} {w : Worker φ ψ} (hWorker : p.workers[i]? = some w) :
    ∃ new, Tallied setup.settings (Pool.work setup now i w p).1
      (journal ++ happenings (Pool.work setup now i w p).2) (deeds ++ new) := by
  obtain ⟨journal', deeds', hChronicle⟩ := h.chronicles w (List.mem_of_getElem? hWorker)
  obtain ⟨new, hMove, hNew, hTells⟩ :=
    Worker.step_chronicle (setup.worker i) now (p.scene w) hChronicle
  have hEntries : happenings (Pool.work setup now i w p).2
      = (Worker.step (setup.worker i) now (p.scene w)).2 := by
    simp [happenings, Pool.work, Function.comp_def]
  have hTotal : ∀ f : Custody φ → Nat, (Pool.work setup now i w p).1.total f + f w.custody
      = p.total f + f (Worker.step (setup.worker i) now (p.scene w)).1.worker.custody :=
    fun f => sum_map_set p.workers (f ·.custody) hWorker _
  obtain ⟨hComing, hHeld, hRefused⟩ :
      w.custody.comingCount + ((allArrivals new).filterMap Delivery.parcel?).length
        = (allAccepted new).length
          + (Worker.step (setup.worker i) now (p.scene w)).1.worker.custody.comingCount ∧
      w.custody.heldCount + (allAccepted new).length
        = (allBatches new).length
          + (Worker.step (setup.worker i) now (p.scene w)).1.worker.custody.heldCount ∧
      w.custody.refusedCount + ((allArrivals new).filterMap Delivery.refusal?).length
        = (allRefusals new).length
          + (Worker.step (setup.worker i) now (p.scene w)).1.worker.custody.refusedCount :=
    hMove.counts
  refine ⟨new, ?_, ?_, ?_, ?_, ?_, ?_, ?_, ?_⟩
  · intro v hv
    obtain hOld | rfl := List.mem_or_eq_of_mem_set hv
    · exact h.chronicles v hOld
    · exact ⟨_, _, hNew⟩
  · rw [List.foldl_append, ← h.counters]
    exact hTells.counters
  · rw [hEntries, arrivals_append, allArrivals_append, h.arrivals, hChronicle.arrivals_new hNew]
  · rw [hEntries, stored_append, storedBatches_append, List.map_append, h.stored,
      hChronicle.stored_new hNew]
  · rw [hEntries, failedSizes_append, List.filterMap_append, h.failed, hTells.failedSizes]
  · have hBefore := h.accepted
    have hAfter := hTotal comingCount
    simp only [List.filterMap_append, List.length_append, allArrivals_append, allAccepted_append]
    omega
  · have hBefore := h.held
    have hAfter := hTotal heldCount
    simp only [List.length_append, allAccepted_append, allBatches_append]
    omega
  · have hBefore := h.refused
    have hAfter := hTotal refusedCount
    simp only [List.filterMap_append, List.length_append, allArrivals_append, allRefusals_append]
    omega

end Tallied

variable {crew : Crew σ ρ τ φ ψ}

theorem Tallied.turn {c : Course σ τ φ ψ} {deeds : List Deed}
    (h : Tallied crew.settings c.pool (happenings c.journal) deeds) (act : α → ρ → ρ)
    (t : Turn α τ) :
    ∃ new, Tallied crew.settings (c.turn crew act t).pool
      (happenings (c.turn crew act t).journal) (deeds ++ new) := by
  have hSame : ∀ {p : Pool σ τ φ ψ} {new : List Event}, p.workers = c.pool.workers →
      p.counters = c.pool.counters →
      (∀ e ∈ happenings new, e.deliveries = [] ∧ e.storedRows? = none ∧ e.failedSize? = none) →
      ∃ more, Tallied crew.settings p (happenings (c.journal ++ new)) (deeds ++ more) := by
    intro p new hWorkers hCounters hNew
    refine ⟨[], ?_⟩
    rw [List.append_nil, happenings, List.map_append]
    exact h.keep hWorkers hCounters hNew
  have hNothing : ∀ e ∈ happenings ([] : List Event),
      e.deliveries = [] ∧ e.storedRows? = none ∧ e.failedSize? = none := List.forall_mem_nil _
  have hStays : ∀ {p : Pool σ τ φ ψ}, p.workers = c.pool.workers →
      p.counters = c.pool.counters →
      ∃ more, Tallied crew.settings p (happenings c.journal) (deeds ++ more) := by
    intro p hWorkers hCounters
    have hSame' := hSame hWorkers hCounters hNothing
    rwa [List.append_nil] at hSame'
  cases t with
  | cancel | store _ | outside _ _ => exact hStays rfl rfl
  | move now m =>
    simp only [Course.turn]
    split
    · cases m with
      | begin => exact hSame rfl rfl (List.forall_mem_singleton.mpr ⟨rfl, rfl, rfl⟩)
      | watch => exact hSame rfl rfl hNothing
      | finish =>
        refine hSame rfl rfl fun e he => ?_
        obtain ⟨entry, hEntry, rfl⟩ := List.mem_map.mp he
        obtain hLost | hStopped := List.mem_append.mp hEntry
        · obtain ⟨i, -, rfl⟩ := List.mem_map.mp hLost
          exact ⟨rfl, rfl, rfl⟩
        · obtain rfl := List.mem_singleton.mp hStopped
          exact ⟨rfl, rfl, rfl⟩
      | spawn =>
        simp only [Pool.apply]
        split
        · refine ⟨[], ?_⟩
          rw [List.append_nil, List.append_nil]
          exact h.hire now _
        · exact hSame rfl rfl hNothing
      | work i =>
        cases hWorker : c.pool.workers[i]? with
        | none =>
          simp only [Pool.apply, hWorker]
          exact hSame rfl rfl hNothing
        | some w =>
          simp only [Pool.apply, hWorker]
          obtain ⟨new, hWork⟩ := Tallied.work crew.pool h now hWorker
          refine ⟨new, ?_⟩
          rw [happenings, List.map_append]
          exact hWork
    · exact hStays rfl rfl

theorem tallied_run (crew : Crew σ ρ τ φ ψ) (act : α → ρ → ρ) (source : σ) (store : τ)
    (turns : List (Turn α τ)) :
    let c := Course.run crew act turns (.start source store)
    ∃ deeds, Tallied crew.settings c.pool (happenings c.journal) deeds := by
  have hRun : ∀ c : Course σ τ φ ψ,
      (∃ deeds, Tallied crew.settings c.pool (happenings c.journal) deeds) →
      ∃ deeds, Tallied crew.settings (Course.run crew act turns c).pool
        (happenings (Course.run crew act turns c).journal) deeds := by
    induction turns with
    | nil => exact fun c hc => hc
    | cons t turns ih =>
      rintro c ⟨deeds, hc⟩
      obtain ⟨new, hTurn⟩ := hc.turn act t
      exact ih _ ⟨_, hTurn⟩
  exact hRun _ ⟨[], .start crew.settings source store⟩

end Pool

/-- A worker that looks at no deliveries and writes no batch: it is about to fetch, or waits, or has
ended. -/
def Worker.isBetween {φ ψ : Type} (w : Worker φ ψ) : Bool :=
  match w.phase with
  | .absorbing .. | .writing .. => false
  | _ => true

theorem Worker.counts_between {φ ψ : Type} {w : Worker φ ψ} (h : w.isBetween = true) :
    w.custody.comingCount = 0 ∧ w.custody.heldCount = w.buffer.batch.length ∧
      w.custody.refusedCount = 0 := by
  obtain ⟨phase, buffer⟩ := w
  cases phase with
  | absorbing | writing => cases h
  | _ => exact ⟨rfl, rfl, rfl⟩

namespace Journal

def decodable (journal : List Happening) : Nat :=
  ((arrivals journal).filterMap Delivery.parcel?).length

def undecodable (journal : List Happening) : Nat :=
  ((arrivals journal).filterMap Delivery.refusal?).length

/-- How many events were stored, as often as they were. -/
def storedSize (journal : List Happening) : Nat := ((stored journal).map List.length).sum

def failedSize (journal : List Happening) : Nat := (failedSizes journal).sum

end Journal

namespace Pool

open Custody

variable {α σ ρ τ φ ψ : Type}

/-- How many events are in a buffer, also of workers that crashed. -/
def buffered (p : Pool σ τ φ ψ) : Nat := (p.workers.map (·.buffer.batch.length)).sum

/-- The counters are what the journal says, and nothing is counted that is not accounted for. -/
structure AddsUp (p : Pool σ τ φ ψ) (journal : List Happening) : Prop where
  processed : p.counters.processed = UInt64.ofNat (decodable journal)
  errors : p.counters.errors = UInt64.ofNat (undecodable journal + failedSize journal)
  inserted : p.counters.inserted = UInt64.ofNat (storedSize journal)
  batches : p.counters.batches = UInt64.ofNat (stored journal).length
  events : decodable journal = storedSize journal + failedSize journal + p.buffered
  balance : p.counters.processed + UInt64.ofNat (undecodable journal)
    = p.counters.inserted + p.counters.errors + UInt64.ofNat p.buffered

theorem Tallied.addsUp {settings : WorkerSettings} {p : Pool σ τ φ ψ} {journal : List Happening}
    {deeds : List Deed} (h : Tallied settings p journal deeds)
    (hBetween : ∀ w ∈ p.workers, w.isBetween = true) : AddsUp p journal := by
  have hNone : ∀ f : Custody φ → Nat, (∀ w ∈ p.workers, f w.custody = 0) → p.total f = 0 := by
    intro f hf
    have hZero : p.total f = (p.workers.map fun _ => 0).sum :=
      congrArg List.sum (List.map_congr_left hf)
    rw [hZero, List.map_const', List.sum_replicate_nat, Nat.mul_zero]
  have hComing := hNone comingCount fun w hw => (Worker.counts_between (hBetween w hw)).1
  have hRefused := hNone refusedCount fun w hw => (Worker.counts_between (hBetween w hw)).2.2
  have hHeld : p.total heldCount = p.buffered :=
    congrArg List.sum
      (List.map_congr_left fun w hw => (Worker.counts_between (hBetween w hw)).2.1)
  have hDecodable : decodable journal = (allAccepted deeds).length := by
    rw [decodable, h.arrivals, h.accepted, hComing, Nat.add_zero]
  have hUndecodable : undecodable journal = (allRefusals deeds).length := by
    rw [undecodable, h.arrivals, h.refused, hRefused, Nat.add_zero]
  have hStored : storedSize journal = (storedBatches deeds).flatten.length := by
    rw [storedSize, h.stored, List.length_flatten, List.map_map]
    refine congrArg List.sum (List.map_congr_left fun batch _ => ?_)
    exact List.length_map _
  have hFailed : failedSize journal = (deeds.filterMap failedSize?).sum := by
    rw [failedSize, h.failed]
  have hEvents : decodable journal = storedSize journal + failedSize journal + p.buffered := by
    rw [hDecodable, hStored, hFailed, ← length_allBatches, h.held, hHeld]
  have hProcessed : p.counters.processed = UInt64.ofNat (decodable journal) := by
    rw [h.counters, processed_tally, hDecodable]
    exact UInt64.zero_add _
  have hErrors : p.counters.errors = UInt64.ofNat (undecodable journal + failedSize journal) := by
    rw [h.counters, errors_tally, hUndecodable, hFailed]
    exact UInt64.zero_add _
  have hInserted : p.counters.inserted = UInt64.ofNat (storedSize journal) := by
    rw [h.counters, (stored_tally deeds {}).1, hStored]
    exact UInt64.zero_add _
  refine ⟨hProcessed, hErrors, hInserted, ?_, hEvents, ?_⟩
  · rw [h.counters, (stored_tally deeds {}).2, h.stored, List.length_map]
    exact UInt64.zero_add _
  · rw [hProcessed, hErrors, hInserted, hEvents]
    simp only [UInt64.ofNat_add]
    ac_rfl

/-- Whatever the sources and the store answer, and in whatever order workers move, crash or fail to
settle what they took in, the counters add up whenever no worker is in the middle of its work. -/
theorem counters_add_up (crew : Crew σ ρ τ φ ψ) (act : α → ρ → ρ) (source : σ) (store : τ)
    (turns : List (Turn α τ)) :
    let c := Course.run crew act turns (.start source store)
    (∀ w ∈ c.pool.workers, w.isBetween = true) → AddsUp c.pool (happenings c.journal) := by
  intro c hBetween
  obtain ⟨deeds, hTallied⟩ := tallied_run crew act source store turns
  exact hTallied.addsUp hBetween

/-- Two workers with batches of two. The first insert of the first one fails, and so do all returns
and the first commit; the second worker crashes when it has an event in its buffer. -/
def crashingCrew :
    Crew (Nat → Faults × Queue) (Faults × Queue) PlannedStore Waiting (Option StoreError) :=
  Queue.crew { batchSize := 2, retry := { maxRetries := 0 } } 2 (fun _ => Faults.guard)
    PlannedStore.store

def crashingStart : Nat → Faults × Queue
  | 0 => ({ failingNaks := [0, 1], failingCommits := 1 }, {})
  | _ => ({ crashingFetch := 2 }, {})

def crashingTurns : List (Turn Queue.Act PlannedStore) :=
  List.replicate 4 (.outside 0 (.publish [123, 125]))
    ++ [.outside 1 (.publish [123, 125]), .outside 1 (.publish [120]), .move 0 .begin,
      .move 0 .spawn, .move 0 .spawn]
    ++ (List.replicate 11 [.move 0 (.work 0), .move 0 (.work 1)]).flatten

/-- Four events of the first worker and one of the second are processed, and a message without an
event is rejected. Two events fail, two are stored, and one is left in the buffer. -/
theorem six_deliveries_add_up_after_crash :
    let c := Course.run crashingCrew (behind Queue.act) crashingTurns
      (.start crashingStart { refusals := 1 })
    (∀ w ∈ c.pool.workers, w.isBetween = true) ∧
      c.pool.workers.map Worker.hasCrashed = [false, true] ∧
      c.pool.counters = { processed := 5, inserted := 2, batches := 1, errors := 3 } ∧
      c.pool.buffered = 1 ∧ AddsUp c.pool (happenings c.journal) := by
  have hBetween : ∀ w ∈ (Course.run crashingCrew (behind Queue.act) crashingTurns
      (.start crashingStart { refusals := 1 })).pool.workers, w.isBetween = true := by
    rw [← List.all_eq_true]
    decide +kernel
  refine ⟨hBetween, by decide +kernel, by decide +kernel, by decide +kernel, ?_⟩
  exact counters_add_up crashingCrew (behind Queue.act) crashingStart { refusals := 1 }
    crashingTurns hBetween

end Pool

end EventIngest
