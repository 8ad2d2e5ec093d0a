import EventIngest.Json.Fault
import EventIngest.Text.Utf8
/-!
# String literals

Reading a literal whose text is wanted, stepping over one whose text is not, and writing one. A
literal begins here after its opening quote.
-/
namespace EventIngest.Json.Literal

def quote : UInt8 := 0x22

def backslash : UInt8 := 0x5C

def hexValue (b : UInt8) : Option Nat :=
  if 0x30 ≤ b ∧ b ≤ 0x39 then some (b.toNat - 0x30)
  else if 0x41 ≤ b ∧ b ≤ 0x46 then some (b.toNat - 0x41 + 10)
  else if 0x61 ≤ b ∧ b ≤ 0x66 then some (b.toNat - 0x61 + 10)
  else none

def hexNumber (digits : List UInt8) : Option Nat :=
  digits.foldlM (fun n b => (hexValue b).map (n * 16 + ·)) 0

def isHighSurrogate (n : Nat) : Bool := decide (0xD800 ≤ n ∧ n ≤ 0xDBFF)

def isLowSurrogate (n : Nat) : Bool := decide (0xDC00 ≤ n ∧ n ≤ 0xDFFF)

def joinSurrogates (high low : Nat) : Nat := (high - 0xD800) * 0x400 + (low - 0xDC00) + 0x10000

/-- The character that a backslash and one byte write, but for the form with four digits. -/
def shortEscape (b : UInt8) : Option UInt8 :=
  if b = 0x22 then some 0x22
  else if b = 0x5C then some 0x5C
  else if b = 0x2F then some 0x2F
  else if b = 0x62 then some 0x08
  else if b = 0x66 then some 0x0C
  else if b = 0x6E then some 0x0A
  else if b = 0x72 then some 0x0D
  else if b = 0x74 then some 0x09
  else none

def encoded (n : Nat) : List UInt8 := String.utf8EncodeChar (Char.ofNat n)

/-- Where the next byte of a literal stands: between characters, after a backslash, among the four
digits of an escape (the second of a surrogate pair when the high one is known), or after a high
surrogate, whose low one has to be escaped at once. -/
inductive Stage where
  | plain
  | escape
  | digits (high : Option Nat) (read : List UInt8)
  | pairBackslash (high : Nat)
  | pairLetter (high : Nat)
  deriving DecidableEq, Repr

/-- What four digits amount to: a character, or a high surrogate that waits for its low one. -/
def finishDigits (high : Option Nat) (n : Nat) : Except Cause (List UInt8 × Stage) :=
  match high with
  | some h =>
    if isLowSurrogate n then .ok (encoded (joinSurrogates h n), .plain) else .error .loneSurrogate
  | none =>
    if isLowSurrogate n then .error .loneSurrogate
    else if isHighSurrogate n then .ok ([], .pairBackslash n)
    else .ok (encoded n, .plain)

/-- One byte inside a literal: the bytes it completes and the stage after it. -/
def advance : Stage → UInt8 → Except Cause (List UInt8 × Stage)
  | .plain, b =>
    if b = backslash then .ok ([], .escape)
    else if b < 0x20 then .error .controlCharacter
    else .ok ([b], .plain)
  | .escape, b =>
    if b = 0x75 then .ok ([], .digits none [])
    else
      match shortEscape b with
      | some c => .ok ([c], .plain)
      | none => .error .badEscape
  | .digits high read, b =>
    let read := read ++ [b]
    if read.length < 4 then .ok ([], .digits high read)
    else
      match hexNumber read with
      | some n => finishDigits high n
      | none => .error .badEscape
  | .pairBackslash high, b =>
    if b = backslash then .ok ([], .pairLetter high) else .error .brokenSurrogatePair
  | .pairLetter high, b =>
    if b = 0x75 then .ok ([], .digits (some high) []) else .error .brokenSurrogatePair

/-- The decoded bytes of a literal, after the reversed `done`, and what follows its closing
quote. -/
def scan : Stage → List UInt8 → List UInt8 → Except Fault (List UInt8 × List UInt8)
  | _, _, [] => .error (.atEnd .endInText)
  | stage, done, b :: rest =>
    if stage = .plain ∧ b = quote then .ok (done.reverse, rest)
    else
      match advance stage b with
      | .error cause => .error (.before cause rest)
      | .ok (bytes, next) => scan next (bytes.reverse ++ done) rest

/-- Reads a literal. Bytes that are no UTF-8 are noted once the literal is known to end, as far
before its end as there are decoded bytes from the first ill-formed one on. -/
def read (text : List UInt8) : Except Fault (String × List UInt8) := do
  let (bytes, rest) ← scan .plain [] text
  match Utf8.decode? bytes with
  | some s => return (s, rest)
  | none => .error ⟨.badCodePoint, (bytes.drop (Utf8.wellFormedLength bytes)).length + rest.length⟩

/-- Steps over a literal: its escapes have to be complete, its surrogates need not pair up and its
bytes need not be UTF-8. -/
def skip : List UInt8 → Except Fault (List UInt8)
  | [] => .error (.atEnd .endInText)
  | b :: rest =>
    if b = quote then .ok rest
    else if b = backslash then
      match rest with
      | [] => .error (.atEnd .endInText)
      | e :: rest =>
        if e = 0x75 then
          match rest with
          | x :: y :: z :: w :: rest =>
            if (hexNumber [x, y, z, w]).isSome then skip rest
            else .error (.before .badEscape rest)
          | _ => .error (.atEnd .endInText)
        else if (shortEscape e).isSome then skip rest
        else .error (.before .badEscape rest)
    else if b < 0x20 then .error (.before .controlCharacter (b :: rest))
    else skip rest

def hexDigit (n : Nat) : Char := Char.ofNat (if n < 10 then 0x30 + n else 0x57 + n)

def writeChar (c : Char) : List Char :=
  if c = '"' then ['\\', '"']
  else if c = '\\' then ['\\', '\\']
  else if c = '\x08' then ['\\', 'b']
  else if c = '\x0C' then ['\\', 'f']
  else if c = '\n' then ['\\', 'n']
  else if c = '\r' then ['\\', 'r']
  else if c = '\t' then ['\\', 't']
  else if c < ' ' then ['\\', 'u', '0', '0', hexDigit (c.toNat / 16), hexDigit (c.toNat % 16)]
  else [c]

def write (s : String) : List Char := '"' :: s.toList.flatMap writeChar ++ ['"']

end EventIngest.Json.Literal
