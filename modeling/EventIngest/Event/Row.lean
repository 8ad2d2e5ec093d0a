import EventIngest.Event.Basic
/-!
# Rows

The table that events are stored in, and an event as a row of it.
-/
namespace EventIngest

structure Row where
  agentId : String
  timestamp : Int
  eventType : Nat
  mitreTactic : String
  mitreTechnique : String
  severity : Int
  payload : String
  tenantId : String
  hostname : String
  osType : String
  deriving DecidableEq, Repr

namespace Row

def ofEvent (e : Event) : Row where
  agentId := e.agentId
  timestamp := e.occurredMillis
  eventType := e.category.code
  mitreTactic := e.mitreTactic
  mitreTechnique := e.mitreTechnique
  severity := e.severity
  payload := e.payload
  tenantId := e.tenantId
  hostname := e.hostname
  osType := e.osType

def members (r : Row) : Json.Members := [
  ("agent_id", .text r.agentId), ("timestamp", .whole r.timestamp),
  ("event_type", .whole r.eventType), ("mitre_tactic", .text r.mitreTactic),
  ("mitre_technique", .text r.mitreTechnique), ("severity", .whole r.severity),
  ("payload", .text r.payload), ("tenant_id", .text r.tenantId), ("hostname", .text r.hostname),
  ("os_type", .text r.osType)]

def json (r : Row) : String := Json.writeObject r.members

/-- Name and type of each column, in the order of a row's members. -/
def columns : List (String × String) := [
  ("agent_id", "String"), ("timestamp", "DateTime64(3, 'UTC')"),
  ("event_type", Category.columnType), ("mitre_tactic", "LowCardinality(String)"),
  ("mitre_technique", "LowCardinality(String)"), ("severity", "Int32"), ("payload", "String"),
  ("tenant_id", "LowCardinality(String)"), ("hostname", "String"),
  ("os_type", "LowCardinality(String)")]

def createTable (table : String) : String :=
  let column (c : String × String) := "    " ++ c.1 ++ " " ++ c.2
  "CREATE TABLE IF NOT EXISTS " ++ table ++ " (\n"
    ++ String.intercalate ",\n" (columns.map column) ++ "\n)\n"
    ++ "ENGINE = MergeTree\nPARTITION BY toYYYYMMDD(timestamp)\n"
    ++ "ORDER BY (tenant_id, event_type, timestamp)"

end Row

end EventIngest
