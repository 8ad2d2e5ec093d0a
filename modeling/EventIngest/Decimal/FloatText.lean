import EventIngest.Decimal.Shortest
/-!
# Text of a double

The shortest decimal of a double, written positionally while the point stays near the digits and
with an exponent otherwise.
-/
namespace EventIngest.Decimal

/-- How a decimal is written. The point's place is counted from the first digit: it is positive
when digits stand before the point. -/
structure Style where
  leastPlace : Int
  greatestPlace : Int
  exponentMark : String
  plusSign : String
  deriving DecidableEq, Repr

/-- One digit before the point, the others after it, and a power of ten. -/
def Style.scientific (style : Style) (digits : List Char) (place : Int) : String :=
  let power := place - 1
  let sign := if power < 0 then "-" else style.plusSign
  let fraction := digits.drop 1
  String.ofList (digits.take 1)
    ++ (if fraction.isEmpty then "" else "." ++ String.ofList fraction)
    ++ style.exponentMark ++ sign ++ toString power.natAbs

/-- Every digit in its place, with at least one digit on each side of the point. -/
def positional (digits : List Char) (place : Int) : String :=
  if place ≤ 0 then
    "0." ++ String.ofList (List.replicate (-place).toNat '0' ++ digits)
  else
    let n := place.toNat
    let fraction := digits.drop n
    String.ofList (digits.take n ++ List.replicate (n - digits.length) '0') ++ "."
      ++ (if fraction.isEmpty then "0" else String.ofList fraction)

def Style.text (style : Style) (x : Float) : String :=
  let sign := if 0x8000000000000000 ≤ x.toBits.toNat then "-" else ""
  let b := Binary.ofFloat x
  if b.mantissa = 0 then sign ++ "0.0"
  else
    let s := shortest b
    let digits := Nat.toDigits 10 s.digits
    let place := s.exponent + digits.length
    sign ++ (if style.leastPlace ≤ place ∧ place ≤ style.greatestPlace then
      positional digits place else style.scientific digits place)

end EventIngest.Decimal
