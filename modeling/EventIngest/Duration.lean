/-!
# Durations

A duration is a natural number of nanoseconds, and a point in time is the duration since the start
of the clock. The longest duration is what 64 bits of seconds and nine decimal places can hold;
a product that would pass it stops there.

The timer counts whole milliseconds since the start of the clock. A wait that is not cut short is
never over before its time, but it is over at a whole millisecond only, so what is finer than a
millisecond is rounded up. The sources and stores in memory are asked for whole milliseconds at whole
milliseconds, where there is nothing to round, and leave it out.
-/
namespace EventIngest

/-- The digits of `n`, with zeros before them up to `width`. -/
def Decimal.padded (width n : Nat) : List Char :=
  let digits := Nat.toDigits 10 n
  List.replicate (width - digits.length) '0' ++ digits

/-- A length of time in nanoseconds. -/
abbrev Duration := Nat

/-- A point in time: the time since the clock started. -/
abbrev Instant := Duration

namespace Duration

def nanosPerMilli : Nat := 1000000

def nanosPerSecond : Nat := 1000000000

def ofMillis (n : Nat) : Duration := n * nanosPerMilli

def ofSeconds (n : Nat) : Duration := n * nanosPerSecond

def millis (d : Duration) : Nat := d / nanosPerMilli

def seconds (d : Duration) : Nat := d / nanosPerSecond

def subsecond (d : Duration) : Nat := d % nanosPerSecond

/-- The longest duration: `2^64 - 1` seconds and `999999999` nanoseconds. -/
def longest : Duration := ofSeconds 0xFFFFFFFFFFFFFFFF + 999999999

/-- `n` times `d`, but never more than the longest duration. -/
def times (d : Duration) (n : Nat) : Duration := min (d * n) longest

/-- The longest time that is waited at once: thirty years of 365 days. -/
def longestWait : Duration := ofSeconds (30 * 365 * 86400)

/-- A wait for `d`, cut short to the longest one. -/
def waited (d : Duration) : Duration := min d longestWait

/-- A whole number of milliseconds, which is what the timer can tell apart. -/
def IsWhole (d : Duration) : Prop := nanosPerMilli ∣ d

instance (d : Duration) : Decidable d.IsWhole := inferInstanceAs (Decidable (nanosPerMilli ∣ d))

/-- The first whole millisecond not before `d`. -/
def roundedUp (d : Duration) : Duration := ofMillis ((d + (nanosPerMilli - 1)) / nanosPerMilli)

/-- The instant at which a wait for `d` is over that begins now. -/
def overAt (d : Duration) (now : Instant) : Instant := roundedUp (now + d.waited)

-- The facts on rounding are stated of numbers first: `omega` does not see that a duration is one.
theorem le_roundedUp (d : Duration) : d ≤ d.roundedUp := by
  have hNat (n : Nat) : n ≤ (n + (1000000 - 1)) / 1000000 * 1000000 := by omega
  exact hNat d

theorem roundedUp_lt (d : Duration) : d.roundedUp < d + ofMillis 1 := by
  have hNat (n : Nat) : (n + (1000000 - 1)) / 1000000 * 1000000 < n + 1 * 1000000 := by omega
  exact hNat d

theorem roundedUp_mono {d e : Duration} (h : d ≤ e) : d.roundedUp ≤ e.roundedUp :=
  Nat.mul_le_mul_right _ (Nat.div_le_div_right (Nat.add_le_add_right h _))

theorem IsWhole.roundedUp_eq {d : Duration} (h : d.IsWhole) : d.roundedUp = d := by
  have hNat (n : Nat) : (1000000 * n + (1000000 - 1)) / 1000000 * 1000000 = 1000000 * n := by omega
  obtain ⟨n, rfl⟩ := h
  exact hNat n

theorem ofMillis_isWhole (n : Nat) : (ofMillis n).IsWhole := Nat.dvd_mul_left nanosPerMilli n

theorem ofSeconds_isWhole (n : Nat) : (ofSeconds n).IsWhole := by
  have hSecond : nanosPerMilli ∣ nanosPerSecond := by decide
  exact Nat.dvd_mul_left_of_dvd hSecond n

theorem longestWait_isWhole : longestWait.IsWhole := ofSeconds_isWhole _

theorem IsWhole.waited {d : Duration} (h : d.IsWhole) : d.waited.IsWhole := by
  obtain hShort | hLong := Nat.le_total d longestWait
  · rwa [Duration.waited, Nat.min_eq_left hShort]
  · rw [Duration.waited, Nat.min_eq_right hLong]
    exact longestWait_isWhole

theorem IsWhole.add {d e : Duration} (hd : d.IsWhole) (he : e.IsWhole) : IsWhole (d + e) :=
  Nat.dvd_add hd he

theorem IsWhole.mul {d : Duration} (h : d.IsWhole) (n : Nat) : IsWhole (n * d) :=
  Nat.dvd_mul_left_of_dvd h n

theorem le_overAt (d : Duration) (now : Instant) : now + d.waited ≤ d.overAt now :=
  le_roundedUp _

theorem overAt_lt (d : Duration) (now : Instant) : d.overAt now < now + d.waited + ofMillis 1 :=
  roundedUp_lt _

/-- From whole millisecond to whole millisecond a wait is exact. -/
theorem overAt_of_isWhole {d : Duration} {now : Instant} (hWait : d.waited.IsWhole)
    (hNow : now.IsWhole) : d.overAt now = now + d.waited := (hNow.add hWait).roundedUp_eq

def parts (d : Duration) : Nat × Nat := (d.seconds, d.subsecond)

/-- `n` units of ten to the minus `places`, without trailing zeros after the point. -/
def decimalText (whole fraction places : Nat) : String :=
  let shown := ((Decimal.padded places fraction).reverse.dropWhile (· == '0')).reverse
  toString whole ++ (if shown.isEmpty then "" else "." ++ String.ofList shown)

/-- A duration in its largest unit not above it, from seconds down to nanoseconds. -/
def text (d : Duration) : String :=
  if nanosPerSecond ≤ d then decimalText d.seconds d.subsecond 9 ++ "s"
  else if nanosPerMilli ≤ d then decimalText d.millis (d % nanosPerMilli) 6 ++ "ms"
  else if 1000 ≤ d then decimalText (d / 1000) (d % 1000) 3 ++ "µs"
  else toString d ++ "ns"

end Duration

end EventIngest
