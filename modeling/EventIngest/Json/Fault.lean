import EventIngest.Decimal.FloatText
import EventIngest.Text.Unprintable
/-!
# Why a text is refused, and where

A fault has a cause and the number of bytes that were still unread when it was found. The line and
the column are counted in the bytes read before that point: the column starts again after each line
feed, and a fault found on a byte that was only looked at is placed after that byte. Texts are shown
between double quotes: quotes, backslashes and the common controls are written with a backslash, and
a character without a printed form as its code point in braces.
-/
namespace EventIngest.Text

def hexDigits (n : Nat) : List Char := Nat.toDigits 16 n

def codePointForm (c : Char) : List Char :=
  ['\\', 'u', '\x7b'] ++ hexDigits c.toNat ++ ['\x7d']

def quoteChar (c : Char) : List Char :=
  if c = '\x00' then ['\\', '0']
  else if c = '\t' then ['\\', 't']
  else if c = '\r' then ['\\', 'r']
  else if c = '\n' then ['\\', 'n']
  else if c = '\\' then ['\\', '\\']
  else if c = '"' then ['\\', '"']
  else if isUnprintable c then codePointForm c
  else [c]

def quote (s : String) : String :=
  String.ofList (['"'] ++ s.toList.flatMap quoteChar ++ ['"'])

end EventIngest.Text

namespace EventIngest.Json

/-- What stands in a text where another kind of value is wanted. -/
inductive Found where
  | null
  | boolean (b : Bool)
  | integer (n : Int)
  | float (x : Float)
  | text (s : String)
  | list
  | object

inductive Cause where
  | endInValue
  | endInText
  | endInList
  | endInObject
  | noValue
  | noWord
  | noColon
  | noListSeparator
  | noObjectSeparator
  | keyNotText
  | commaBeforeEnd
  | afterEnd
  | badNumber
  | numberTooLarge
  | badEscape
  | badCodePoint
  | controlCharacter
  | brokenSurrogatePair
  | loneSurrogate
  | wrongType (found : Found) (expected : String)
  | wrongInteger (n : Int) (expected : String)
  | wrongLength (n : Nat) (expected : String)
  | duplicateField (name : String)
  | missingField (name : String)

structure Fault where
  cause : Cause
  left : Nat

/-- Doubles are written positionally from `1e-5` up to below `1e16`. -/
def floatStyle : Decimal.Style :=
  { leastPlace := -4, greatestPlace := 16, exponentMark := "e", plusSign := "+" }

def Found.message : Found → String
  | .null => "null"
  | .boolean true => "boolean `true`"
  | .boolean false => "boolean `false`"
  | .integer n => "integer `" ++ toString n ++ "`"
  | .float x => "floating point `" ++ floatStyle.text x ++ "`"
  | .text s => "string " ++ Text.quote s
  | .list => "sequence"
  | .object => "map"

def Cause.message : Cause → String
  | .endInValue => "EOF while parsing a value"
  | .endInText => "EOF while parsing a string"
  | .endInList => "EOF while parsing a list"
  | .endInObject => "EOF while parsing an object"
  | .noValue => "expected value"
  | .noWord => "expected ident"
  | .noColon => "expected `:`"
  | .noListSeparator => "expected `,` or `]`"
  | .noObjectSeparator => "expected `,` or `\x7d`"
  | .keyNotText => "key must be a string"
  | .commaBeforeEnd => "trailing comma"
  | .afterEnd => "trailing characters"
  | .badNumber => "invalid number"
  | .numberTooLarge => "number out of range"
  | .badEscape => "invalid escape"
  | .badCodePoint => "invalid unicode code point"
  | .controlCharacter => "control character (\\u0000-\\u001F) found while parsing a string"
  | .brokenSurrogatePair => "unexpected end of hex escape"
  | .loneSurrogate => "lone leading surrogate in hex escape"
  | .wrongType found expected => "invalid type: " ++ found.message ++ ", expected " ++ expected
  | .wrongInteger n expected =>
    "invalid value: integer `" ++ toString n ++ "`, expected " ++ expected
  | .wrongLength n expected => "invalid length " ++ toString n ++ ", expected " ++ expected
  | .duplicateField name => "duplicate field `" ++ name ++ "`"
  | .missingField name => "missing field `" ++ name ++ "`"

/-- A fault found between what was read and `rest`. -/
def Fault.before (cause : Cause) (rest : List UInt8) : Fault := ⟨cause, rest.length⟩

/-- A fault found by looking at the first byte of `rest`. -/
def Fault.on (cause : Cause) (rest : List UInt8) : Fault := ⟨cause, rest.length - 1⟩

def Fault.atEnd (cause : Cause) : Fault := ⟨cause, 0⟩

def Fault.position (fault : Fault) (text : List UInt8) : Nat × Nat :=
  let read := text.take (text.length - fault.left)
  (read.count 0x0A + 1, (read.reverse.takeWhile (· != 0x0A)).length)

def Fault.message (fault : Fault) (text : List UInt8) : String :=
  let (line, column) := fault.position text
  fault.cause.message ++ " at line " ++ toString line ++ " column " ++ toString column

end EventIngest.Json
