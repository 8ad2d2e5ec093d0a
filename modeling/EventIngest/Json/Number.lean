import EventIngest.Json.Fault
/-!
# Numbers

A number without fraction and exponent that fits 64 bits, signed or not, is a whole number; `-0` and
all others are doubles. A double is made of the digits that fit an unsigned 64-bit number, scaled by
a power of ten; further digits of the whole part only move the point and those of the fraction are
dropped.
-/
namespace EventIngest.Json

inductive Number where
  | whole (n : Int)
  | real (x : Float)

def Number.found : Number → Found
  | .whole n => .integer n
  | .real x => .float x

namespace Number

def isDigit (b : UInt8) : Bool := decide (0x30 ≤ b ∧ b ≤ 0x39)

def minus : UInt8 := 0x2D

def plus : UInt8 := 0x2B

def point : UInt8 := 0x2E

def isExponentMark (b : UInt8) : Bool := decide (b = 0x65 ∨ b = 0x45)

def digitValue (b : UInt8) : Nat := b.toNat - 0x30

def digits (text : List UInt8) : List UInt8 × List UInt8 := text.span isDigit

def begins (b : UInt8) : Bool := isDigit b || b == minus

/-- The whole part: no digit may follow a leading zero. -/
def readWhole : List UInt8 → Except Fault (List UInt8 × List UInt8)
  | [] => .error (.atEnd .endInValue)
  | b :: rest =>
    if b = 0x30 then
      match rest with
      | [] => .ok ([b], [])
      | c :: _ => if isDigit c then .error (.on .badNumber rest) else .ok ([b], rest)
    else if isDigit b then .ok (digits (b :: rest))
    else .error (.before .badNumber rest)

/-- The digits after a point, if there is one: at least one has to follow. -/
def readFraction : List UInt8 → Except Fault (Option (List UInt8) × List UInt8)
  | [] => .ok (none, [])
  | b :: rest =>
    if b = point then
      match digits rest with
      | ([], []) => .error (.atEnd .endInValue)
      | ([], rest) => .error (.on .badNumber rest)
      | (ds, rest) => .ok (some ds, rest)
    else .ok (none, b :: rest)

def readExponent : List UInt8 → Except Fault (Option (Bool × List UInt8) × List UInt8)
  | [] => .ok (none, [])
  | b :: rest =>
    if isExponentMark b then
      let (negative, rest) :=
        match rest with
        | [] => (false, [])
        | s :: tail =>
          if s = plus then (false, tail) else if s = minus then (true, tail) else (false, rest)
      match rest with
      | [] => .error (.atEnd .endInValue)
      | c :: tail =>
        if isDigit c then
          let (ds, rest) := digits rest
          .ok (some (negative, ds), rest)
        else .error (.before .badNumber tail)
    else .ok (none, b :: rest)

/-- The value of digits, as far as it stays below `limit`: otherwise the digits after the one that
would reach it. -/
def valueBelow (limit : Nat) : Nat → List UInt8 → Except (List UInt8) Nat
  | n, [] => .ok n
  | n, d :: ds =>
    let m := n * 10 + digitValue d
    if m < limit then valueBelow limit m ds else .error ds

/-- A significand below `2 ^ 64` and the power of ten that belongs to it. -/
structure Parts where
  significand : Nat
  power : Int

/-- Digits of the whole part; those beyond 64 bits raise the power. -/
def Parts.ofWhole (ds : List UInt8) : Parts :=
  ds.foldl (fun p d =>
    let m := p.significand * 10 + digitValue d
    if p.power = 0 ∧ m < 0x10000000000000000 then ⟨m, 0⟩
    else { p with power := p.power + 1 }) ⟨0, 0⟩

/-- Digits of the fraction; the first that does not fit 64 bits and those after it are dropped. -/
def Parts.addFraction (p : Parts) : List UInt8 → Parts
  | [] => p
  | d :: ds =>
    let m := p.significand * 10 + digitValue d
    if m < 0x10000000000000000 then addFraction ⟨m, p.power - 1⟩ ds else p

def powerOfTen (n : Nat) : Float := Float.ofScientific 1 false n

/-- `x / 10 ^ n`, in steps that doubles can hold. -/
def shrink (x : Float) (n : Nat) : Float :=
  if n ≤ 308 then x / powerOfTen n
  else if x == 0 then x
  else shrink (x / powerOfTen 308) (n - 308)
termination_by n

def Parts.toFloat? (p : Parts) : Option Float :=
  let x := (UInt64.ofNat p.significand).toFloat
  if p.power < 0 then some (shrink x p.power.natAbs)
  else if p.power ≤ 308 then
    let y := x * powerOfTen p.power.natAbs
    if y.isInf then none else some y
  else if x == 0 then some x
  else none

def signed (negative : Bool) (x : Float) : Float := if negative then -x else x

def wholeOf? (negative : Bool) (ds : List UInt8) : Option Int :=
  match valueBelow 0x10000000000000000 0 ds with
  | .error _ => none
  | .ok n =>
    if negative then (if 0 < n ∧ n ≤ 0x8000000000000000 then some (-(n : Int)) else none)
    else some n

def realOf (negative : Bool) (ds : List UInt8) (fraction : Option (List UInt8))
    (exponent : Option (Bool × List UInt8)) (rest : List UInt8) : Except Fault Float :=
  let p := (Parts.ofWhole ds).addFraction (fraction.getD [])
  let scaled (power : Int) : Except Fault Float :=
    match Parts.toFloat? ⟨p.significand, power⟩ with
    | some x => .ok (signed negative x)
    | none => .error (.before .numberTooLarge rest)
  match exponent with
  | none => scaled p.power
  | some (down, es) =>
    match valueBelow 0x80000000 0 es with
    | .ok n => scaled (if down then p.power - n else p.power + n)
    | .error unread =>
      if down ∨ p.significand = 0 then .ok (signed negative 0)
      else .error (.before .numberTooLarge (unread ++ rest))

def read (text : List UInt8) : Except Fault (Number × List UInt8) := do
  let (negative, text) :=
    match text with
    | b :: rest => if b = minus then (true, rest) else (false, text)
    | [] => (false, [])
  let (ds, rest) ← readWhole text
  let (fraction, rest) ← readFraction rest
  let (exponent, rest) ← readExponent rest
  match fraction, exponent, wholeOf? negative ds with
  | none, none, some n => return (.whole n, rest)
  | _, _, _ =>
    let x ← realOf negative ds fraction exponent rest
    return (.real x, rest)

/-- Steps over the digits that have to stand here; `fault` tells where their absence is noted. -/
def skipDigits (fault : List UInt8 → Fault) (text : List UInt8) : Except Fault (List UInt8) :=
  match digits text with
  | ([], rest) => .error (fault rest)
  | (_, rest) => .ok rest

def skipExponent : List UInt8 → Except Fault (List UInt8)
  | [] => .ok []
  | b :: rest =>
    if isExponentMark b then
      match rest with
      | s :: tail =>
        skipDigits (fun r => .before .badNumber (r.drop 1))
          (if s = plus ∨ s = minus then tail else rest)
      | [] => .error (.atEnd .badNumber)
    else .ok (b :: rest)

def skipFraction : List UInt8 → Except Fault (List UInt8)
  | [] => .ok []
  | b :: rest => if b = point then skipDigits (.on .badNumber) rest else .ok (b :: rest)

/-- Steps over a number, whatever its size. A missing digit is a bad number also at the end of the
text. -/
def skip (text : List UInt8) : Except Fault (List UInt8) := do
  let text :=
    match text with
    | b :: rest => if b = minus then rest else text
    | [] => []
  let rest ←
    match text with
    | [] => .error (.atEnd .badNumber)
    | b :: rest =>
      if b = 0x30 then
        match rest with
        | [] => .ok []
        | c :: _ => if isDigit c then .error (.on .badNumber rest) else .ok rest
      else if isDigit b then .ok (digits rest).2
      else .error (.before .badNumber rest)
  let rest ← skipFraction rest
  skipExponent rest

end Number

end EventIngest.Json
