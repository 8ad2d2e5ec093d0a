/-!
# Shortest decimal of a double

A positive double is `mantissa * 2 ^ exponent`, and the reals that round to it form an interval
around it whose ends belong to it when the mantissa is even. Of all decimals in the interval with
the fewest digits the nearest is chosen, and of two equally near ones the even one. The search
looks at the two neighbours of the value on the grids of 1, 2, … 17 digits, in exact arithmetic.
-/
namespace EventIngest.Decimal

/-- `digits * 10 ^ exponent`. -/
structure Scaled where
  digits : Nat
  exponent : Int
  deriving DecidableEq, Repr

/-- A finite double without its sign, and whether the doubles below it lie twice as dense. -/
structure Binary where
  mantissa : Nat
  exponent : Int
  denserBelow : Bool
  deriving DecidableEq, Repr

def Binary.ofFloat (x : Float) : Binary :=
  let bits := x.toBits.toNat % 0x8000000000000000
  let fraction := bits % 0x10000000000000
  match bits / 0x10000000000000 with
  | 0 => ⟨fraction, -1074, false⟩
  | e + 1 => ⟨0x10000000000000 + fraction, (e : Int) - 1074, decide (fraction = 0 ∧ 0 < e)⟩

/-- The ends `low / unit` and `high / unit` of an interval and a point `value / unit` in it. -/
structure Interval where
  low : Nat
  value : Nat
  high : Nat
  unit : Nat
  closed : Bool
  deriving DecidableEq, Repr

/-- The reals that round to the double. -/
def Binary.interval (b : Binary) : Interval :=
  let up := Nat.pow 2 (b.exponent - 2).toNat
  let below := if b.denserBelow then 1 else 2
  { low := (4 * b.mantissa - below) * up
    value := 4 * b.mantissa * up
    high := (4 * b.mantissa + 2) * up
    unit := Nat.pow 2 (2 - b.exponent).toNat
    closed := decide (b.mantissa % 2 = 0) }

def Interval.holds (i : Interval) (d : Nat) (j : Int) : Bool :=
  let point := d * Nat.pow 10 j.toNat * i.unit
  let scale := Nat.pow 10 (-j).toNat
  if i.closed then decide (i.low * scale ≤ point ∧ point ≤ i.high * scale)
  else decide (i.low * scale < point ∧ point < i.high * scale)

def Interval.distance (i : Interval) (d : Nat) (j : Int) : Nat :=
  let point := d * Nat.pow 10 j.toNat * i.unit
  let value := i.value * Nat.pow 10 (-j).toNat
  (point - value) + (value - point)

/-- How many zeros follow the point of `a / b < 1`, at most `fuel`. -/
def zerosAfterPoint (a b : Nat) : Nat → Nat
  | 0 => 0
  | fuel + 1 => if b ≤ a * 10 then 0 else zerosAfterPoint (a * 10) b fuel + 1

/-- The place of the value's first digit: `10 ^ (place - 1) ≤ value < 10 ^ place`. -/
def Interval.place (i : Interval) : Int :=
  if i.unit ≤ i.value then (Nat.toDigits 10 (i.value / i.unit)).length
  else -(zerosAfterPoint i.value i.unit 400 : Int)

/-- The neighbours of the value on the grid of `n` digits that lie in the interval; the nearer one
of two. -/
def Interval.onGrid (i : Interval) (n : Nat) : Option Scaled :=
  let j := i.place - n
  let d := i.value * Nat.pow 10 (-j).toNat / (i.unit * Nat.pow 10 j.toNat)
  match i.holds d j, i.holds (d + 1) j with
  | false, false => none
  | true, false => some ⟨d, j⟩
  | false, true => some ⟨d + 1, j⟩
  | true, true =>
    let down := i.distance d j
    let up := i.distance (d + 1) j
    if down < up ∨ (down = up ∧ d % 2 = 0) then some ⟨d, j⟩ else some ⟨d + 1, j⟩

def Scaled.normal (s : Scaled) : Nat → Scaled
  | 0 => s
  | fuel + 1 => if s.digits % 10 = 0 then normal ⟨s.digits / 10, s.exponent + 1⟩ fuel else s

/-- The shortest decimal that reads back as a positive double. -/
def shortest (b : Binary) : Scaled :=
  let i := b.interval
  match (List.range 17).findSome? fun n => i.onGrid (n + 1) with
  | some s => s.normal 20
  | none => ⟨0, 0⟩

end EventIngest.Decimal
