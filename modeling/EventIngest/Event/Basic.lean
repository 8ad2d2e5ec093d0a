import EventIngest.Calendar
import EventIngest.Event.Category
import EventIngest.Json.Record
/-!
# Events

An event is what an agent reports. It travels as a JSON record whose fields may all be absent; its
timestamp counts milliseconds and has to lie within the calendar.
-/
namespace EventIngest

structure Event where
  agentId : String := ""
  timestamp : Int := 0
  eventType : String := ""
  mitreTactic : String := ""
  mitreTechnique : String := ""
  severity : Int := 0
  payload : String := ""
  tenantId : String := ""
  hostname : String := ""
  osType : String := ""
  deriving DecidableEq, Repr

inductive DecodeError where
  | noPayload
  | malformed (cause : Json.Cause) (line column : Nat)
  | timestampOutOfRange (timestamp : Int)

def DecodeError.message : DecodeError → String
  | .noPayload => "message has no payload"
  | .malformed cause line column =>
    "invalid event json: " ++ cause.message ++ " at line " ++ toString line ++ " column "
      ++ toString column
  | .timestampOutOfRange t => "timestamp " ++ toString t ++ " is outside the representable range"

namespace Event

def shape : Json.Shape where
  name := "struct Event"
  fields := [
    ("agent_id", .text), ("timestamp", .whole .int64), ("event_type", .text),
    ("mitre_tactic", .text), ("mitre_technique", .text), ("severity", .whole .int32),
    ("payload", .text), ("tenant_id", .text), ("hostname", .text), ("os_type", .text)]
  required := false

def ofMembers (members : Json.Members) : Event where
  agentId := (members.text? "agent_id").getD ""
  timestamp := (members.whole? "timestamp").getD 0
  eventType := (members.text? "event_type").getD ""
  mitreTactic := (members.text? "mitre_tactic").getD ""
  mitreTechnique := (members.text? "mitre_technique").getD ""
  severity := (members.whole? "severity").getD 0
  payload := (members.text? "payload").getD ""
  tenantId := (members.text? "tenant_id").getD ""
  hostname := (members.text? "hostname").getD ""
  osType := (members.text? "os_type").getD ""

def members (e : Event) : Json.Members := [
  ("agent_id", .text e.agentId), ("timestamp", .whole e.timestamp),
  ("event_type", .text e.eventType), ("mitre_tactic", .text e.mitreTactic),
  ("mitre_technique", .text e.mitreTechnique), ("severity", .whole e.severity),
  ("payload", .text e.payload), ("tenant_id", .text e.tenantId), ("hostname", .text e.hostname),
  ("os_type", .text e.osType)]

def wire (e : Event) : String := Json.writeObject e.members

def ofBytes (bytes : List UInt8) : Except DecodeError Event :=
  if bytes.isEmpty then .error .noPayload
  else
    match shape.read bytes with
    | .error fault =>
      let (line, column) := fault.position bytes
      .error (.malformed fault.cause line column)
    | .ok members =>
      let e := ofMembers members
      if Calendar.covers e.timestamp then .ok e else .error (.timestampOutOfRange e.timestamp)

def category (e : Event) : Category := .ofTag e.eventType

/-- When the event happened, in milliseconds; an instant outside the calendar counts as its
origin. -/
def occurredMillis (e : Event) : Int := if Calendar.covers e.timestamp then e.timestamp else 0

def occurredAt (e : Event) : DateTime := Calendar.ofMillis e.occurredMillis

end Event

end EventIngest
