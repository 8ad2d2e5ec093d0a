import EventIngest.Counters
import EventIngest.Duration
/-!
# Reports

At fixed intervals the totals are reported together with how fast they grew since the report
before, until the reporter is cancelled. What is counted at the instant of a report is in its totals.
-/
namespace EventIngest

/-- How much each total grew over a time; a total that became smaller did not grow. -/
structure Growth where
  processed : Nat
  inserted : Nat
  batches : Nat
  elapsed : Duration
  deriving DecidableEq, Repr

namespace Growth

def between (before after : Counters) (elapsed : Duration) : Growth where
  processed := after.processed.toNat - before.processed.toNat
  inserted := after.inserted.toNat - before.inserted.toNat
  batches := after.batches.toNat - before.batches.toNat
  elapsed := elapsed

def inSeconds (d : Duration) : Float :=
  (UInt64.ofNat d.seconds).toFloat + (UInt64.ofNat d.subsecond).toFloat / 1000000000

/-- Growth per second; none in no time. -/
def perSecond (n : Nat) (elapsed : Duration) : Float :=
  let seconds := inSeconds elapsed
  if seconds > 0 then (UInt64.ofNat n).toFloat / seconds else 0

def processedRate (g : Growth) : Float := perSecond g.processed g.elapsed

def insertedRate (g : Growth) : Float := perSecond g.inserted g.elapsed

def batchesRate (g : Growth) : Float := perSecond g.batches g.elapsed

end Growth

/-- Two decimal places, a half rounded away from zero. -/
def roundHundredths (x : Float) : Float := (x * 100).round / 100

structure Report where
  time : Instant
  totals : Counters
  growth : Growth
  deriving DecidableEq, Repr

namespace Report

/-- Counters and the increments that are still to come, in the order of their times. -/
structure Timeline where
  counters : Counters
  coming : List (Instant × Counters.Increment)
  deriving DecidableEq, Repr

def Timeline.advance (t : Timeline) (limit : Instant) : Timeline where
  counters := (t.coming.takeWhile fun i => decide (i.1 ≤ limit)).foldl (·.add ·.2) t.counters
  coming := t.coming.dropWhile fun i => decide (i.1 ≤ limit)

end Report

structure Reporter where
  interval : Duration
  interval_pos : 0 < interval
  due : Instant
  last : Instant := 0
  baseline : Counters := {}
  timeline : Report.Timeline

namespace Reporter

/-- A reporter at the start of the clock; its first report comes after one interval. -/
def start (interval : Duration) (h : 0 < interval)
    (coming : List (Instant × Counters.Increment)) : Reporter where
  interval := interval
  interval_pos := h
  due := interval
  timeline := ⟨{}, coming⟩

/-- When the timer lets the reporter go on. -/
def wakes (r : Reporter) : Instant := r.due.roundedUp

def report (r : Reporter) : Report :=
  let totals := (r.timeline.advance r.wakes).counters
  ⟨r.wakes, totals, .between r.baseline totals (r.wakes - r.last)⟩

/-- The reporter after the report that is due. The next one is due an interval after this one was,
also if this one was late. -/
def next (r : Reporter) : Reporter :=
  { r with
    due := r.due + r.interval.waited
    last := r.wakes
    baseline := r.report.totals
    timeline := r.timeline.advance r.wakes }

theorem due_lt_next (r : Reporter) : r.due < r.next.due :=
  Nat.lt_add_of_pos_right (Nat.lt_min.mpr ⟨r.interval_pos, by decide⟩)

/-- Waits for the next report or for the cancel, which wins at a tie. Once it is cancelled, it
returns; the instant of this is given with the reports. -/
def run (stop : Instant) (r : Reporter) : List Report × Instant :=
  if r.wakes < stop then
    let (reports, returned) := run stop r.next
    (r.report :: reports, returned)
  else ([], stop)
termination_by stop - r.due
decreasing_by
  exact Nat.sub_lt_sub_left (Nat.lt_of_le_of_lt r.due.le_roundedUp ‹r.wakes < stop›) r.due_lt_next

end Reporter

namespace Report

/-- The reports before an instant; none without an interval. -/
def before (interval : Duration) (stop : Instant) (coming : List (Instant × Counters.Increment)) :
    List Report :=
  if h : 0 < interval then ((Reporter.start interval h coming).run stop).1 else []

def finalTotals (stop : Instant) (coming : List (Instant × Counters.Increment)) : Counters :=
  (Timeline.advance ⟨{}, coming⟩ stop).counters

end Report

end EventIngest
