import EventIngest.Json.Literal
import EventIngest.Json.Number
/-!
# Values whose content is not wanted

A value of any depth is stepped over with the open lists and objects kept on a stack, so that depth
costs no recursion.
-/
namespace EventIngest.Json

def openList : UInt8 := 0x5B

def closeList : UInt8 := 0x5D

def openObject : UInt8 := 0x7B

def closeObject : UInt8 := 0x7D

def comma : UInt8 := 0x2C

def colon : UInt8 := 0x3A

def isBlank (b : UInt8) : Bool := decide (b = 0x20 ∨ b = 0x0A ∨ b = 0x09 ∨ b = 0x0D)

def skipBlanks (text : List UInt8) : List UInt8 := text.dropWhile isBlank

def readWord : List UInt8 → List UInt8 → Except Fault (List UInt8)
  | [], text => .ok text
  | _ :: _, [] => .error (.atEnd .endInValue)
  | w :: word, b :: rest => if b = w then readWord word rest else .error (.before .noWord rest)

/-- What follows the first letter of `null`, `true` and `false`. -/
def wordAfter (b : UInt8) : Option (List UInt8) :=
  if b = 0x6E then some [0x75, 0x6C, 0x6C]
  else if b = 0x74 then some [0x72, 0x75, 0x65]
  else if b = 0x66 then some [0x61, 0x6C, 0x73, 0x65]
  else none

inductive Frame where
  | list
  | object
  deriving DecidableEq, Repr

def Frame.close : Frame → UInt8
  | .list => closeList
  | .object => closeObject

def Frame.endCause : Frame → Cause
  | .list => .endInList
  | .object => .endInObject

def Frame.separatorCause : Frame → Cause
  | .list => .noListSeparator
  | .object => .noObjectSeparator

def skipKey (text : List UInt8) : Except Fault (List UInt8) := do
  match skipBlanks text with
  | [] => .error (.atEnd .endInObject)
  | b :: rest =>
    if b = Literal.quote then
      let rest ← Literal.skip rest
      match skipBlanks rest with
      | [] => .error (.atEnd .endInObject)
      | c :: after => if c = colon then .ok after else .error (.on .noColon (c :: after))
    else .error (.on .keyNotText (b :: rest))

def skipScalar (text : List UInt8) : Except Fault (List UInt8) :=
  match text with
  | [] => .error (.atEnd .endInValue)
  | b :: rest =>
    if b = Literal.quote then Literal.skip rest
    else if Number.begins b then Number.skip text
    else
      match wordAfter b with
      | some word => readWord word rest
      | none => .error (.on .noValue text)

/-- What stands next inside the open brackets: a value, or what follows an opening bracket or a
value. -/
inductive Place where
  | value
  | opened
  | closed
  deriving DecidableEq, Repr

/-- Where a member or an element begins in the innermost bracket. -/
def skipToValue (frame : Frame) (text : List UInt8) : Except Fault (List UInt8) :=
  match frame with
  | .list => .ok text
  | .object => skipKey text

/-- Steps over the rest of a value inside the open brackets `frames`. The fuel bounds the number of
places visited. -/
def skipFrom : Nat → Place → List Frame → List UInt8 → Except Fault (List UInt8)
  | 0, _, _, text => .error (.before .endInValue text)
  | fuel + 1, .value, frames, text =>
    match skipBlanks text with
    | [] => .error (.atEnd .endInValue)
    | b :: rest =>
      if b = openList then skipFrom fuel .opened (.list :: frames) rest
      else if b = openObject then skipFrom fuel .opened (.object :: frames) rest
      else do
        let rest ← skipScalar (b :: rest)
        skipFrom fuel .closed frames rest
  | _ + 1, _, [], text => .ok text
  | fuel + 1, place, frame :: frames, text =>
    match skipBlanks text with
    | [] => .error (.atEnd frame.endCause)
    | b :: rest =>
      if b = frame.close then skipFrom fuel .closed frames rest
      else
        match place with
        | .closed =>
          if b = comma then do
            let rest ← skipToValue frame rest
            skipFrom fuel .value (frame :: frames) rest
          else .error (.on frame.separatorCause (b :: rest))
        | _ => do
          let rest ← skipToValue frame (b :: rest)
          skipFrom fuel .value (frame :: frames) rest

/-- Steps over a value of a text with fewer than `bound` bytes. Between two bytes read at most two
places are visited. -/
def skipValue (bound : Nat) (text : List UInt8) : Except Fault (List UInt8) :=
  skipFrom (2 * bound) .value [] text

end EventIngest.Json
