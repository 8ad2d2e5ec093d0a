import EventIngest.Decimal.Whole
/-!
# Reading variables

The ways in which a setting is read from named variables. But for flags, a variable of nothing but
white space counts as absent. White space is the Unicode property White_Space, not only its ASCII
part.
-/
namespace EventIngest

namespace Text

/-- First and last code point of each range of the property White_Space. -/
def blankRanges : List (Nat × Nat) := [
  (0x9, 0xD), (0x20, 0x20), (0x85, 0x85), (0xA0, 0xA0), (0x1680, 0x1680), (0x2000, 0x200A),
  (0x2028, 0x2029), (0x202F, 0x202F), (0x205F, 0x205F), (0x3000, 0x3000)]

def isBlankChar (c : Char) : Bool :=
  blankRanges.any fun (first, last) => decide (first ≤ c.toNat ∧ c.toNat ≤ last)

def trim (s : String) : String :=
  String.ofList (((s.toList.dropWhile isBlankChar).reverse.dropWhile isBlankChar).reverse)

def isBlank (s : String) : Bool := s.toList.all isBlankChar

/-- ASCII capitals become small letters; every other character stays. -/
def lowerAscii (s : String) : String := String.ofList (s.toList.map Char.toLower)

end Text

/-- The variables that are set, by name. -/
abbrev Environment := String → Option String

inductive SettingsError where
  | missing (name : String)
  | blank (name : String)
  | notWhole (name : String) (width : String) (reason : Decimal.WholeError)
  | notPositive (name : String)
  | notIdentifier (name : String)
  | zero (names : List String)
  deriving DecidableEq, Repr

def SettingsError.message : SettingsError → String
  | .missing name => "missing env var: " ++ name
  | .blank name => "env var " ++ name ++ " cannot be empty"
  | .notWhole name width reason => "invalid " ++ width ++ " for " ++ name ++ ": " ++ reason.message
  | .notPositive name => name ++ " must be a positive integer"
  | .notIdentifier name => name ++ " must contain only letters, digits and underscores"
  | .zero names => String.intercalate " and " names ++ " must be greater than 0"

namespace Environment

def required (env : Environment) (name : String) : Except SettingsError String :=
  match env name with
  | none => .error (.missing name)
  | some value => if Text.isBlank value then .error (.blank name) else .ok value

/-- A variable that may be absent; its value is kept as it is. -/
def optional (env : Environment) (name : String) : Option String :=
  (env name).filter fun value => !Text.isBlank value

def text (env : Environment) (name default : String) : String := (env.optional name).getD default

/-- A whole number, with white space around it allowed. -/
def whole (env : Environment) (name : String) (width : Decimal.Width) (default : Int) :
    Except SettingsError Int :=
  match env.optional name with
  | none => .ok default
  | some value =>
    match width.read (Text.trim value) with
    | .ok n => .ok n
    | .error reason => .error (.notWhole name width.name reason)

def count (env : Environment) (name : String) (width : Decimal.Width) (default : Nat) :
    Except SettingsError Nat :=
  (env.whole name width default).map Int.toNat

def onWords : List String := ["1", "true", "yes", "on"]

/-- A flag is off when its variable is absent. -/
def flag (env : Environment) (name : String) : Bool :=
  match env name with
  | none => false
  | some value => onWords.contains (Text.lowerAscii (Text.trim value))

end Environment

end EventIngest
