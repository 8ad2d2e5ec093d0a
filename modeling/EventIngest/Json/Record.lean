import EventIngest.Decimal.Whole
import EventIngest.Json.Skip
/-!
# Records

A record has named fields that hold a text or a whole number of a range. It is read from an object,
whose other members are stepped over, or from a list of the fields' values in order. Fields that
do not occur are left out of the result, unless the shape requires every one.
-/
namespace EventIngest.Json

inductive Kind where
  | text
  | whole (width : Decimal.Width)
  deriving DecidableEq, Repr

inductive Scalar where
  | text (s : String)
  | whole (n : Int)
  deriving DecidableEq, Repr

/-- The fields that were read, each at most once. -/
abbrev Members := List (String × Scalar)

namespace Members

def text? (members : Members) (name : String) : Option String :=
  match members.lookup name with
  | some (.text s) => some s
  | _ => none

def whole? (members : Members) (name : String) : Option Int :=
  match members.lookup name with
  | some (.whole n) => some n
  | _ => none

end Members

structure Shape where
  name : String
  fields : List (String × Kind)
  required : Bool

namespace Kind

def expected : Kind → String
  | .text => "a string"
  | .whole width => width.name

end Kind

def foundWord (b : UInt8) : Found :=
  if b = 0x74 then .boolean true else if b = 0x66 then .boolean false else .null

/-- The fault of a value that is not what is expected: its own, if it is malformed. A list or an
object is refused before its bracket is read. -/
def refusal (expected : String) (text : List UInt8) : Fault :=
  match text with
  | [] => .atEnd .endInValue
  | b :: rest =>
    if b = Literal.quote then
      match Literal.read rest with
      | .error fault => fault
      | .ok (s, rest) => .before (.wrongType (.text s) expected) rest
    else if Number.begins b then
      match Number.read text with
      | .error fault => fault
      | .ok (n, rest) => .before (.wrongType n.found expected) rest
    else if b = openList then .before (.wrongType .list expected) text
    else if b = openObject then .before (.wrongType .object expected) text
    else
      match wordAfter b with
      | none => .on .noValue text
      | some word =>
        match readWord word rest with
        | .error fault => fault
        | .ok rest => .before (.wrongType (foundWord b) expected) rest

def Kind.read (kind : Kind) (text : List UInt8) : Except Fault (Scalar × List UInt8) :=
  match skipBlanks text with
  | [] => .error (.atEnd .endInValue)
  | b :: rest =>
    match kind with
    | .text =>
      if b = Literal.quote then do
        let (s, rest) ← Literal.read rest
        return (.text s, rest)
      else .error (refusal kind.expected (b :: rest))
    | .whole width =>
      if Number.begins b then do
        let (n, rest) ← Number.read (b :: rest)
        match n with
        | .whole n =>
          if width.holds n then return (.whole n, rest)
          else throw (.before (.wrongInteger n width.name) rest)
        | .real x => throw (.before (.wrongType (.float x) width.name) rest)
      else .error (refusal kind.expected (b :: rest))

def readColon (text : List UInt8) : Except Fault (List UInt8) :=
  match skipBlanks text with
  | [] => .error (.atEnd .endInObject)
  | b :: rest => if b = colon then .ok rest else .error (.on .noColon (b :: rest))

/-- The text after the quote that opens the next key; `text` begins with no blank and not with the
closing bracket. -/
def openKey (first : Bool) (text : List UInt8) : Except Fault (List UInt8) :=
  match text with
  | [] => .error (.atEnd .endInObject)
  | b :: rest =>
    if first then
      if b = Literal.quote then .ok rest else .error (.on .keyNotText text)
    else if b = comma then
      match skipBlanks rest with
      | [] => .error (.atEnd .endInValue)
      | c :: after =>
        if c = Literal.quote then .ok after
        else if c = closeObject then .error (.on .commaBeforeEnd (c :: after))
        else .error (.on .keyNotText (c :: after))
    else .error (.on .noObjectSeparator text)

/-- The text after the blanks and, if it comes next, the closing bracket. -/
def dropClose (close : UInt8) (text : List UInt8) : List UInt8 :=
  match skipBlanks text with
  | [] => []
  | b :: rest => if b = close then rest else b :: rest

namespace Shape

def kind? (shape : Shape) (key : String) : Option Kind := shape.fields.lookup key

/-- Reads one member whose key was just read; the text has fewer than `bound` bytes. -/
def readMember (shape : Shape) (bound : Nat) (members : Members) (key : String)
    (text : List UInt8) : Except Fault (Members × List UInt8) :=
  match shape.kind? key with
  | some kind =>
    if (members.lookup key).isSome then
      .error (.before (.duplicateField key) (dropClose closeObject text))
    else do
      let rest ← readColon text
      let (value, rest) ← kind.read rest
      return (members ++ [(key, value)], rest)
  | none => do
    let rest ← readColon text
    let rest ← skipValue bound rest
    return (members, rest)

/-- Reads the members of an object up to and including its bracket. The text has fewer bytes than
the fuel. -/
def readMembers (shape : Shape) :
    Nat → Bool → Members → List UInt8 → Except Fault (Members × List UInt8)
  | 0, _, _, text => .error (.before .endInObject text)
  | fuel + 1, first, members, text =>
    match skipBlanks text with
    | [] => .error (.atEnd .endInObject)
    | b :: rest =>
      if b = closeObject then .ok (members, rest)
      else do
        let rest ← openKey first (b :: rest)
        let (key, rest) ← Literal.read rest
        let (members, rest) ← shape.readMember fuel members key rest
        readMembers shape fuel false members rest

def missing (shape : Shape) (members : Members) : List String :=
  if shape.required then
    (shape.fields.map Prod.fst).filter fun name => (members.lookup name).isNone
  else []

/-- Reads an object after its opening bracket. A missing field is noted after the closing one. -/
def readObject (shape : Shape) (text : List UInt8) : Except Fault (Members × List UInt8) := do
  let (members, rest) ← shape.readMembers (text.length + 1) true [] text
  match shape.missing members with
  | [] => return (members, rest)
  | name :: _ => throw (.before (.missingField name) rest)

/-- The text after a list's closing bracket, where no further element may stand. -/
def endList (text : List UInt8) : Except Fault (List UInt8) :=
  match skipBlanks text with
  | [] => .error (.atEnd .endInList)
  | b :: rest =>
    if b = closeList then .ok rest
    else if b = comma then
      match skipBlanks rest with
      | [] => .error (.atEnd .afterEnd)
      | c :: after =>
        if c = closeList then .error (.on .commaBeforeEnd (c :: after))
        else .error (.on .afterEnd (c :: after))
    else .error (.on .afterEnd (b :: rest))

/-- Where the next element begins, if the list goes on; otherwise the text after its bracket. -/
def nextElement (first : Bool) (text : List UInt8) :
    Except Fault (List UInt8 ⊕ List UInt8) :=
  match skipBlanks text with
  | [] => .error (.atEnd .endInList)
  | b :: rest =>
    if b = closeList then .ok (.inr rest)
    else if first then .ok (.inl (b :: rest))
    else if b = comma then
      match skipBlanks rest with
      | [] => .error (.atEnd .endInValue)
      | c :: after =>
        if c = closeList then .error (.on .commaBeforeEnd (c :: after))
        else .ok (.inl (c :: after))
    else .error (.on .noListSeparator (b :: rest))

def readElements (shape : Shape) (members : Members) :
    List (String × Kind) → List UInt8 → Except Fault (Members × List UInt8)
  | [], text => do
    let rest ← endList text
    return (members, rest)
  | (name, kind) :: fields, text => do
    match ← nextElement members.isEmpty text with
    | .inl text =>
      let (value, rest) ← kind.read text
      readElements shape (members ++ [(name, value)]) fields rest
    | .inr rest =>
      if shape.required then
        throw (.before (.wrongLength members.length
          (shape.name ++ " with " ++ toString shape.fields.length ++ " elements")) rest)
      else return (members, rest)

def readRecord (shape : Shape) (text : List UInt8) : Except Fault (Members × List UInt8) :=
  match skipBlanks text with
  | [] => .error (.atEnd .endInValue)
  | b :: rest =>
    if b = openObject then shape.readObject rest
    else if b = openList then shape.readElements [] shape.fields rest
    else .error (refusal shape.name (b :: rest))

def read (shape : Shape) (text : List UInt8) : Except Fault Members := do
  let (members, rest) ← shape.readRecord text
  match skipBlanks rest with
  | [] => return members
  | b :: rest => throw (.on .afterEnd (b :: rest))

end Shape

def Scalar.write : Scalar → List Char
  | .text s => Literal.write s
  | .whole n => (toString n).toList

def writeObject (members : Members) : String :=
  let written := members.map fun (key, value) => Literal.write key ++ ':' :: value.write
  String.ofList ('\x7b' :: ((List.intersperse [','] written).flatten ++ ['\x7d']))

end EventIngest.Json
