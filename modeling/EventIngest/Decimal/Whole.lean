/-!
# Reading whole numbers

A whole number of a range is read digit by digit from the left: the first character that is no digit
and the first digit that leads out of the range are refused, whichever comes first. A plus sign is
always allowed and a minus sign where the range has negative numbers.
-/
namespace EventIngest.Decimal

/-- A range of whole numbers and the name that messages give it. -/
structure Width where
  name : String
  least : Int
  greatest : Int
  deriving DecidableEq, Repr

namespace Width

def int32 : Width := ⟨"i32", -0x80000000, 0x7FFFFFFF⟩

def int64 : Width := ⟨"i64", -0x8000000000000000, 0x7FFFFFFFFFFFFFFF⟩

def count32 : Width := ⟨"u32", 0, 0xFFFFFFFF⟩

def count64 : Width := ⟨"u64", 0, 0xFFFFFFFFFFFFFFFF⟩

/-- Sizes of collections, as wide as a 64-bit count. -/
def size : Width := ⟨"usize", 0, 0xFFFFFFFFFFFFFFFF⟩

def holds (w : Width) (n : Int) : Bool := decide (w.least ≤ n ∧ n ≤ w.greatest)

end Width

inductive WholeError where
  | empty
  | invalidDigit
  | tooLarge
  | tooSmall
  deriving DecidableEq, Repr

def WholeError.message : WholeError → String
  | .empty => "cannot parse integer from empty string"
  | .invalidDigit => "invalid digit found in string"
  | .tooLarge => "number too large to fit in target type"
  | .tooSmall => "number too small to fit in target type"

/-- Appends digits to `n`, which may not pass `limit`. -/
def readDigits (limit : Nat) (beyond : WholeError) : Nat → List Char → Except WholeError Nat
  | n, [] => .ok n
  | n, c :: cs =>
    if c.isDigit then
      let m := n * 10 + (c.toNat - '0'.toNat)
      if m ≤ limit then readDigits limit beyond m cs else .error beyond
    else .error .invalidDigit

def readMagnitude (limit : Nat) (beyond : WholeError) (cs : List Char) : Except WholeError Nat :=
  if cs.isEmpty then .error .invalidDigit else readDigits limit beyond 0 cs

def Width.read (w : Width) (s : String) : Except WholeError Int :=
  match s.toList with
  | [] => .error .empty
  | c :: cs =>
    if c = '-' ∧ w.least < 0 then
      (readMagnitude w.least.natAbs .tooSmall cs).map fun n => -(n : Int)
    else if c = '+' then (readMagnitude w.greatest.toNat .tooLarge cs).map fun n => (n : Int)
    else (readMagnitude w.greatest.toNat .tooLarge (c :: cs)).map fun n => (n : Int)

end EventIngest.Decimal
