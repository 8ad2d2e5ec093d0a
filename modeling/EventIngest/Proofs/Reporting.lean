import EventIngest.Report
import Mathlib.Algebra.GroupWithZero.Nat
/-!
# Reports miss nothing

A reporter tells the totals at its ticks: the first comes after one interval, each later one when the
interval has been waited for again, at the first millisecond that is not too early. What it tells of
growth is the difference of the totals at two ticks in a row, so that no increment is left out or
told twice.
-/
namespace EventIngest

namespace Counters

inductive Kind where
  | processed
  | inserted
  | batches
  | errors
  deriving DecidableEq, Repr

def get (c : Counters) : Kind → UInt64
  | .processed => c.processed
  | .inserted => c.inserted
  | .batches => c.batches
  | .errors => c.errors

def Increment.amount : Increment → Kind → Nat
  | .processed n, .processed => n
  | .inserted n, .inserted => n
  | .inserted _, .batches => 1
  | .errors n, .errors => n
  | _, _ => 0

theorem eq_of_get {c d : Counters} (h : ∀ kind, c.get kind = d.get kind) : c = d := by
  obtain ⟨processed, inserted, batches, errors⟩ := c
  rw [mk.injEq]
  exact ⟨h .processed, h .inserted, h .batches, h .errors⟩

theorem get_add (c : Counters) (i : Increment) (kind : Kind) :
    (c.add i).get kind = c.get kind + UInt64.ofNat (i.amount kind) := by
  cases i <;> cases kind <;>
    simp [add, addProcessed, addInserted, addErrors, get, Increment.amount]

end Counters

open Counters (Increment Kind)

namespace Report

variable (interval : Duration) (coming : List (Instant × Increment))

/-- What the increments up to an instant add up to. -/
def counted (kind : Kind) (t : Instant) : Nat :=
  ((coming.filter fun i => decide (i.1 ≤ t)).map fun i => i.2.amount kind).sum

/-- The counters at an instant, modulo `2 ^ 64`. -/
def totalsAt (t : Instant) : Counters where
  processed := UInt64.ofNat (counted coming .processed t)
  inserted := UInt64.ofNat (counted coming .inserted t)
  batches := UInt64.ofNat (counted coming .batches t)
  errors := UInt64.ofNat (counted coming .errors t)

/-- The instants of the reports, counted from one. The zeroth is the start of the clock. -/
def tick : Nat → Instant
  | 0 => 0
  | k + 1 => Duration.roundedUp (interval + k * interval.waited)

/-- An interval of a millisecond and a half. -/
example : (List.range 4).map (fun k => tick 1500000 (k + 1)) = [2, 3, 5, 6].map Duration.ofMillis := by
  decide

/-- What a counter shows at a tick; it starts from zero. -/
def shown (kind : Kind) : Nat → Nat
  | 0 => 0
  | k + 1 => counted coming kind (tick interval (k + 1)) % 2 ^ 64

/-- The report at the tick after the `k`-th. -/
def line (k : Nat) : Report where
  time := tick interval (k + 1)
  totals := totalsAt coming (tick interval (k + 1))
  growth := {
    processed := shown interval coming .processed (k + 1) - shown interval coming .processed k
    inserted := shown interval coming .inserted (k + 1) - shown interval coming .inserted k
    batches := shown interval coming .batches (k + 1) - shown interval coming .batches k
    elapsed := tick interval (k + 1) - tick interval k }

theorem get_totalsAt (kind : Kind) (t : Instant) :
    (totalsAt coming t).get kind = UInt64.ofNat (counted coming kind t) := by
  cases kind <;> rfl

theorem toNat_get_totalsAt (kind : Kind) (t : Instant) :
    ((totalsAt coming t).get kind).toNat = counted coming kind t % 2 ^ 64 := by
  rw [get_totalsAt, UInt64.toNat_ofNat']

theorem tick_le_succ (k : Nat) : tick interval k ≤ tick interval (k + 1) := by
  cases k with
  | zero => exact Nat.zero_le _
  | succ k =>
    have hLater := Nat.mul_le_mul_right interval.waited (Nat.le_succ k)
    exact Duration.roundedUp_mono (Nat.add_le_add_left hLater interval)

theorem tick_mono {j k : Nat} (h : j ≤ k) : tick interval j ≤ tick interval k := by
  induction h with
  | refl => exact Nat.le_refl _
  | step _ ih => exact Nat.le_trans ih (tick_le_succ interval _)

variable {interval}

theorem tick_of_isWhole (h : interval.IsWhole) (k : Nat) :
    tick interval (k + 1) = interval + k * min interval Duration.longestWait :=
  (h.add (h.waited.mul k)).roundedUp_eq

theorem tick_eq_mul (hWhole : interval.IsWhole) (h : interval ≤ Duration.longestWait) (k : Nat) :
    tick interval k = k * interval := by
  cases k with
  | zero => exact (Nat.zero_mul interval).symm
  | succ k => rw [tick_of_isWhole hWhole, Nat.min_eq_left h, Nat.succ_mul, Nat.add_comm]

section Advancing

variable {coming} {t : Instant}

theorem advance_cons_of_le {i : Instant × Increment} (h : i.1 ≤ t) (c : Counters) :
    Timeline.advance ⟨c, i :: coming⟩ t = Timeline.advance ⟨c.add i.2, coming⟩ t := by
  simp [Timeline.advance, h]

theorem advance_cons_of_lt {i : Instant × Increment} (h : t < i.1) (c : Counters) :
    Timeline.advance ⟨c, i :: coming⟩ t = ⟨c, i :: coming⟩ := by
  simp [Timeline.advance, Nat.not_le.mpr h]

/-- To go on from an instant that has been reached is the same as to go there at once. -/
theorem advance_advance (timeline : Timeline) {s : Instant} (h : s ≤ t) :
    (timeline.advance s).advance t = timeline.advance t := by
  obtain ⟨c, coming⟩ := timeline
  induction coming generalizing c with
  | nil => rfl
  | cons i rest ih =>
    by_cases hi : i.1 ≤ s
    · rw [advance_cons_of_le hi, advance_cons_of_le (Nat.le_trans hi h), ih]
    · rw [advance_cons_of_lt (Nat.lt_of_not_le hi)]

theorem counted_cons (i : Instant × Increment) (kind : Kind) :
    counted (i :: coming) kind t = (if i.1 ≤ t then i.2.amount kind else 0) + counted coming kind t := by
  by_cases hi : i.1 ≤ t <;> simp [counted, hi]

theorem counted_eq_zero (h : ∀ i ∈ coming, t < i.1) (kind : Kind) : counted coming kind t = 0 := by
  have hNone : coming.filter (fun i => decide (i.1 ≤ t)) = [] := by
    rw [List.filter_eq_nil_iff]
    intro i hi
    simpa using h i hi
  rw [counted, hNone]
  rfl

/-- In a list in the order of times, the increments up to an instant stand before all others. -/
theorem get_advance (hOrder : coming.Pairwise fun i j => i.1 ≤ j.1) (c : Counters) (kind : Kind) :
    (Timeline.advance ⟨c, coming⟩ t).counters.get kind
      = c.get kind + UInt64.ofNat (counted coming kind t) := by
  induction coming generalizing c with
  | nil => exact (UInt64.add_zero _).symm
  | cons i rest ih =>
    obtain ⟨hFirst, hRest⟩ := List.pairwise_cons.mp hOrder
    by_cases hi : i.1 ≤ t
    · rw [advance_cons_of_le hi, ih hRest, counted_cons, if_pos hi, Counters.get_add, UInt64.add_assoc,
        UInt64.ofNat_add]
    · have hLater : ∀ j ∈ i :: rest, t < j.1 := by
        intro j hj
        obtain rfl | hj := List.mem_cons.mp hj
        · exact Nat.lt_of_not_le hi
        · exact Nat.lt_of_lt_of_le (Nat.lt_of_not_le hi) (hFirst j hj)
      rw [advance_cons_of_lt (Nat.lt_of_not_le hi), counted_eq_zero hLater]
      exact (UInt64.add_zero _).symm

theorem counters_advance (hOrder : coming.Pairwise fun i j => i.1 ≤ j.1) :
    (Timeline.advance ⟨{}, coming⟩ t).counters = totalsAt coming t := by
  apply Counters.eq_of_get
  intro kind
  have hZero : ({} : Counters).get kind = 0 := by cases kind <;> rfl
  rw [get_advance hOrder, get_totalsAt, hZero, UInt64.zero_add]

theorem finalTotals_eq (hOrder : coming.Pairwise fun i j => i.1 ≤ j.1) (final : Instant) :
    finalTotals final coming = totalsAt coming final := counters_advance hOrder

theorem counted_all (h : ∀ i ∈ coming, i.1 ≤ t) (kind : Kind) :
    counted coming kind t = (coming.map fun i => i.2.amount kind).sum := by
  have hAll : coming.filter (fun i => decide (i.1 ≤ t)) = coming := by
    rw [List.filter_eq_self]
    intro i hi
    exact decide_eq_true (h i hi)
  rw [counted, hAll]

end Advancing

theorem counted_mono {s t : Instant} (h : s ≤ t) (kind : Kind) :
    counted coming kind s ≤ counted coming kind t := by
  induction coming with
  | nil => exact Nat.le_refl _
  | cons i rest ih =>
    rw [counted_cons, counted_cons]
    by_cases hi : i.1 ≤ s
    · rw [if_pos hi, if_pos (Nat.le_trans hi h)]
      exact Nat.add_le_add_left ih _
    · rw [if_neg hi, Nat.zero_add]
      exact Nat.le_trans ih (Nat.le_add_left _ _)

/-- As long as a counter does not wrap, what it grew by adds up to what it shows. -/
theorem sum_growth (interval : Duration) (kind : Kind) (n : Nat)
    (h : counted coming kind (tick interval n) < 2 ^ 64) :
    ((List.range n).map fun k =>
      shown interval coming kind (k + 1) - shown interval coming kind k).sum
      = shown interval coming kind n := by
  induction n with
  | zero => rfl
  | succ n ih =>
    have hUp := counted_mono coming (tick_le_succ interval n) kind
    have hLess : shown interval coming kind n ≤ shown interval coming kind (n + 1) := by
      rw [shown, Nat.mod_eq_of_lt h]
      cases n with
      | zero => exact Nat.zero_le _
      | succ n => exact Nat.le_trans (Nat.mod_le _ _) hUp
    rw [List.range_succ, List.map_append, List.sum_append, ih (Nat.lt_of_le_of_lt hUp h)]
    simpa using Nat.add_sub_cancel' hLess

end Report

namespace Reporter

open Report

variable {interval stop : Duration} {coming : List (Instant × Increment)} {r : Reporter} {k : Nat}

/-- A reporter that has made so many reports. -/
structure HasMade (interval : Duration) (coming : List (Instant × Increment)) (k : Nat)
    (r : Reporter) : Prop where
  interval_eq : r.interval = interval
  due : r.due = interval + k * interval.waited
  last : r.last = tick interval k
  baseline : ∀ kind, (r.baseline.get kind).toNat = shown interval coming kind k
  ahead : ∀ t, r.last ≤ t → (r.timeline.advance t).counters = totalsAt coming t

theorem HasMade.start (h : 0 < interval) (hOrder : coming.Pairwise fun i j => i.1 ≤ j.1) :
    HasMade interval coming 0 (start interval h coming) where
  interval_eq := rfl
  due := by simp [Reporter.start]
  last := rfl
  baseline kind := by cases kind <;> rfl
  ahead _ _ := counters_advance hOrder

namespace HasMade

theorem wakes (h : HasMade interval coming k r) : r.wakes = tick interval (k + 1) := by
  rw [Reporter.wakes, h.due, tick]

theorem last_le_wakes (h : HasMade interval coming k r) : r.last ≤ r.wakes := by
  rw [h.last, h.wakes]
  exact tick_le_succ interval k

theorem totals_eq (h : HasMade interval coming k r) :
    r.report.totals = totalsAt coming (tick interval (k + 1)) := by
  rw [← h.wakes]
  exact h.ahead r.wakes h.last_le_wakes

theorem report_eq (h : HasMade interval coming k r) : r.report = line interval coming k := by
  have hShown (kind : Kind) :
      (r.report.totals.get kind).toNat = shown interval coming kind (k + 1) := by
    rw [h.totals_eq, toNat_get_totalsAt]
    rfl
  have hGrowth : r.report.growth = (line interval coming k).growth := by
    rw [line, ← hShown .processed, ← hShown .inserted, ← hShown .batches, ← h.baseline .processed,
      ← h.baseline .inserted, ← h.baseline .batches, ← h.wakes, ← h.last]
    rfl
  calc
    r.report = ⟨r.wakes, r.report.totals, r.report.growth⟩ := rfl
    _ = line interval coming k := by
      rw [h.wakes, h.totals_eq, hGrowth]
      rfl

theorem next (h : HasMade interval coming k r) : HasMade interval coming (k + 1) r.next where
  interval_eq := h.interval_eq
  due := by
    change r.due + r.interval.waited = _
    rw [h.due, h.interval_eq, Nat.succ_mul, Nat.add_assoc]
  last := h.wakes
  baseline kind := by
    change (r.report.totals.get kind).toNat = _
    rw [h.totals_eq, toNat_get_totalsAt]
    rfl
  ahead t ht := by
    change ((r.timeline.advance r.wakes).advance t).counters = _
    rw [advance_advance r.timeline (s := r.wakes) ht]
    exact h.ahead t (Nat.le_trans h.last_le_wakes ht)

/-- Every tick before the cancel is reported, in order, and nothing else is. -/
theorem run_eq (h : HasMade interval coming k r) :
    ∃ n, (∀ j, j < n ↔ tick interval (k + j + 1) < stop) ∧
      r.run stop = ((List.range n).map fun j => line interval coming (k + j), stop) := by
  fun_induction Reporter.run stop r generalizing k with
  | case1 r hWakes reports returned hRest ih =>
    obtain ⟨n, hTicks, hRun⟩ := ih h.next
    refine ⟨n + 1, fun j => ?_, ?_⟩
    · cases j with
      | zero => simpa [← h.wakes] using hWakes
      | succ j => rw [Nat.succ_lt_succ_iff, hTicks, Nat.add_right_comm k 1 j, Nat.add_assoc k j 1]
    · rw [hRest] at hRun
      obtain ⟨rfl, rfl⟩ := Prod.mk.inj hRun
      simp [List.range_succ_eq_map, h.report_eq, Function.comp_def, Nat.add_right_comm k 1,
        Nat.add_assoc]
  | case2 r hLate =>
    refine ⟨0, fun j => ⟨fun hj => absurd hj (Nat.not_lt_zero j), fun hLess => ?_⟩, rfl⟩
    rw [h.wakes] at hLate
    exact absurd (Nat.lt_of_le_of_lt (tick_mono interval (by omega)) hLess) hLate

end HasMade

/-- What a fresh reporter tells until it is cancelled. -/
theorem run_start (h : 0 < interval) (hOrder : coming.Pairwise fun i j => i.1 ≤ j.1)
    (stop : Instant) :
    ∃ n, (∀ k, k < n ↔ tick interval (k + 1) < stop) ∧
      (start interval h coming).run stop = ((List.range n).map (line interval coming), stop) := by
  simpa only [Nat.zero_add] using (HasMade.start h hOrder).run_eq

end Reporter

namespace Report

variable {interval : Duration} {coming : List (Instant × Increment)}

theorem sum_reported {growth : Report → Nat} (kind : Kind)
    (hGrowth : ∀ k, growth (line interval coming k)
      = shown interval coming kind (k + 1) - shown interval coming kind k)
    {n : Nat} {last : Report} (hLast : last ∈ ((List.range n).map (line interval coming)).getLast?)
    (hWrap : counted coming kind last.time < 2 ^ 64) :
    (((List.range n).map (line interval coming)).map growth).sum = (last.totals.get kind).toNat := by
  cases n with
  | zero => cases hLast
  | succ n =>
    obtain rfl : line interval coming n = last := by
      simpa [List.range_succ] using hLast
    have hSum := sum_growth coming interval kind (n + 1) hWrap
    simp only [List.map_map, Function.comp_def, hGrowth]
    exact hSum.trans (toNat_get_totalsAt coming kind _).symm

/-- For every interval, every schedule of increments and every cancel, there is exactly one report at
each tick before the cancel, and the reporter returns at the cancel. With an interval of whole
milliseconds each tick comes exactly one interval after the one before it, or as long as can be
waited at once; so ticks are the multiples of an interval that can be waited for at once. Each report
has the totals of its instant modulo `2 ^ 64`; its growth is what a counter shows more than at the
tick before, or nothing if it wrapped to less, over the time between the two ticks. So the growth of
all reports adds up to the totals of the last one unless a counter wraps, and at the end the totals
are those of all increments. -/
theorem nothing_missed_or_told_twice (hInterval : 0 < interval)
    (hOrder : coming.Pairwise fun i j => i.1 ≤ j.1) (stop : Instant) :
    (interval.IsWhole →
      (∀ k, tick interval (k + 1) = interval + k * min interval Duration.longestWait) ∧
      (interval ≤ Duration.longestWait → ∀ k, tick interval k = k * interval)) ∧
    (∃ n, (∀ k, k < n ↔ tick interval (k + 1) < stop) ∧
      let reports := (List.range n).map (line interval coming)
      (Reporter.start interval hInterval coming).run stop = (reports, stop) ∧
      ∀ last ∈ reports.getLast?,
        (counted coming .processed last.time < 2 ^ 64 →
          (reports.map (·.growth.processed)).sum = last.totals.processed.toNat) ∧
        (counted coming .inserted last.time < 2 ^ 64 →
          (reports.map (·.growth.inserted)).sum = last.totals.inserted.toNat) ∧
        (counted coming .batches last.time < 2 ^ 64 →
          (reports.map (·.growth.batches)).sum = last.totals.batches.toNat)) ∧
    ∀ final, (∀ i ∈ coming, i.1 ≤ final) → ∀ kind,
      ((finalTotals final coming).get kind).toNat
        = (coming.map fun i => i.2.amount kind).sum % 2 ^ 64 := by
  obtain ⟨n, hTicks, hRun⟩ := Reporter.run_start hInterval hOrder stop
  refine ⟨fun hWhole => ⟨tick_of_isWhole hWhole, tick_eq_mul hWhole⟩,
    ⟨n, hTicks, hRun, fun last hLast => ⟨?_, ?_, ?_⟩⟩, fun final hFinal kind => ?_⟩
  · exact sum_reported .processed (fun k => rfl) hLast
  · exact sum_reported .inserted (fun k => rfl) hLast
  · exact sum_reported .batches (fun k => rfl) hLast
  · rw [finalTotals_eq hOrder, toNat_get_totalsAt, counted_all hFinal]

section Example

/-- Three messages are processed in the first second, and a batch of two is stored in the second. -/
def twoSteps : List (Instant × Increment) :=
  [(.ofMillis 5, .processed 3), (.ofMillis 1500, .inserted 2)]

theorem two_steps_reported :
    let run := (Reporter.start (.ofSeconds 1) (by decide) twoSteps).run (.ofMillis 2500)
    twoSteps.Pairwise (fun i j => i.1 ≤ j.1) ∧
    run = ([⟨.ofSeconds 1, { processed := 3 }, ⟨3, 0, 0, .ofSeconds 1⟩⟩,
      ⟨.ofSeconds 2, { processed := 3, inserted := 2, batches := 1 }, ⟨0, 2, 1, .ofSeconds 1⟩⟩],
      .ofMillis 2500) ∧
    (run.1.map (·.growth.inserted)).sum = 2 ∧ tick (.ofSeconds 1) 2 = 2 * .ofSeconds 1 ∧
    ((finalTotals (.ofSeconds 3) twoSteps).get .processed).toNat = 3 := by
  intro run
  have hOrder : twoSteps.Pairwise (fun i j => i.1 ≤ j.1) := by decide
  obtain ⟨hExact, ⟨n, hTicks, hRun, hSums⟩, hFinal⟩ :=
    nothing_missed_or_told_twice (show 0 < Duration.ofSeconds 1 by decide) hOrder
      (.ofMillis 2500)
  have hSecond := (hTicks 1).mpr (by decide)
  have hThird := mt (hTicks 2).mp (by decide)
  obtain rfl : n = 2 := by omega
  have hSum := (hSums (line (.ofSeconds 1) twoSteps 1) rfl).2.1 (by decide)
  change run = _ at hRun
  rw [hRun]
  obtain ⟨-, hMultiple⟩ := hExact (by decide)
  exact ⟨hOrder, by decide, hSum, hMultiple (by decide) 2, hFinal _ (by decide) .processed⟩

/-- An interval of more than thirty years is cut short after the first report: the second report
comes before two intervals have passed. -/
theorem long_interval_cut_short :
    let interval := Duration.ofMillis 1000000000000
    let stop := Duration.ofMillis 1950000000005
    (before interval stop []).map time = [interval, .ofMillis 1946080000000] ∧
      stop < 2 * interval := by
  intro interval stop
  obtain ⟨n, hTicks, hRun⟩ :=
    Reporter.run_start (show 0 < interval by decide) List.Pairwise.nil stop
  have hSecond := (hTicks 1).mpr (by decide)
  have hThird := mt (hTicks 2).mp (by decide)
  obtain rfl : n = 2 := by omega
  refine ⟨?_, by decide⟩
  rw [before, dif_pos (by decide), hRun]
  decide

end Example

end Report

end EventIngest
