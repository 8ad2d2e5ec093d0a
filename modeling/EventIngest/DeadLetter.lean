import EventIngest.Message
/-!
# Dead letters

A message that never decodes is put aside in an envelope which names its place in the log, the
reason, and the text of its bytes.
-/
namespace EventIngest

structure DeadLetter where
  failedAt : String
  reason : String
  topic : String
  partition : Int
  offset : Int
  deliveryCount : Nat
  payload : String
  deriving DecidableEq, Repr

namespace DeadLetter

/-- The text of a clock that shows `t` milliseconds after the start of 1970. -/
def stamp (t : Int) : String := Calendar.secondsText (Calendar.ofMillis t) ++ "Z"

/-- The envelope of a message. Bytes that are no UTF-8 are kept as far as text can. -/
def ofMessage (failedAt topic : String) (handle : Handle) (raw : List UInt8) (reason : String) :
    DeadLetter where
  failedAt := failedAt
  reason := reason
  topic := topic
  partition := handle.partition
  offset := handle.offset
  deliveryCount := handle.deliveryCount
  payload := Utf8.lossy raw

def key (d : DeadLetter) : String :=
  d.topic ++ "-" ++ toString d.partition ++ "-" ++ toString d.offset

def shape : Json.Shape where
  name := "struct DeadLetterEnvelope"
  fields := [
    ("failed_at", .text), ("error", .text), ("topic", .text), ("partition", .whole .int32),
    ("offset", .whole .int64), ("delivery_count", .whole .count32), ("payload", .text)]
  required := true

def ofMembers (members : Json.Members) : DeadLetter where
  failedAt := (members.text? "failed_at").getD ""
  reason := (members.text? "error").getD ""
  topic := (members.text? "topic").getD ""
  partition := (members.whole? "partition").getD 0
  offset := (members.whole? "offset").getD 0
  deliveryCount := ((members.whole? "delivery_count").getD 0).toNat
  payload := (members.text? "payload").getD ""

def members (d : DeadLetter) : Json.Members := [
  ("failed_at", .text d.failedAt), ("error", .text d.reason), ("topic", .text d.topic),
  ("partition", .whole d.partition), ("offset", .whole d.offset),
  ("delivery_count", .whole d.deliveryCount), ("payload", .text d.payload)]

def wire (d : DeadLetter) : String := Json.writeObject d.members

def ofBytes (bytes : List UInt8) : Except Json.Fault DeadLetter :=
  (shape.read bytes).map ofMembers

end DeadLetter

end EventIngest
