import EventIngest.Duration
import EventIngest.Settings.Reading
/-!
# Settings

All that an operator can choose. The settings are read from variables in a fixed order, which
decides about the error that is reported, and then checked as a whole.
-/
namespace EventIngest

structure Settings where
  brokers : String
  topic : String
  groupId : String
  securityProtocol : String
  saslMechanism : Option String
  saslUsername : Option String
  saslPassword : Option String
  caLocation : Option String
  sessionTimeoutMs : Nat
  maxPollIntervalMs : Nat
  reconnectBackoffMs : Nat
  reconnectBackoffMaxMs : Nat
  createTopics : Bool
  topicPartitions : Int
  replicationFactor : Int
  deadLetterTopic : String
  maxDeliver : Nat
  storeUrl : String
  database : String
  storeUser : String
  storePassword : Option String
  table : String
  maxExecutionSeconds : Nat
  insertTimeoutSeconds : Nat
  createTable : Bool
  batchSize : Nat
  batchTimeoutMs : Nat
  workerCount : Nat
  insertMaxRetries : Nat
  insertRetryBackoffMs : Nat
  fetchWaitMs : Nat
  statsIntervalSeconds : Nat
  healthBind : Option String
  deriving DecidableEq, Repr

namespace Settings

open Decimal (Width)

/-- The settings that the variables stand for, unchecked. -/
def read (env : Environment) : Except SettingsError Settings := do
  let brokers ← env.required "KAFKA_BROKERS"
  let sessionTimeoutMs ← env.count "KAFKA_SESSION_TIMEOUT_MS" Width.count64 10000
  let maxPollIntervalMs ← env.count "KAFKA_MAX_POLL_INTERVAL_MS" Width.count64 60000
  let reconnectBackoffMs ← env.count "KAFKA_RECONNECT_BACKOFF_MS" Width.count64 2000
  let reconnectBackoffMaxMs ← env.count "KAFKA_RECONNECT_BACKOFF_MAX_MS" Width.count64 20000
  let topicPartitions ← env.whole "KAFKA_TOPIC_PARTITIONS" Width.int32 8
  let replicationFactor ← env.whole "KAFKA_TOPIC_REPLICATION_FACTOR" Width.int32 1
  let maxDeliver ← env.count "CONSUMER_MAX_DELIVER" Width.count32 5
  let maxExecutionSeconds ← env.count "CLICKHOUSE_MAX_EXECUTION_SECONDS" Width.count64 60
  let insertTimeoutSeconds ← env.count "CLICKHOUSE_INSERT_TIMEOUT_SECONDS" Width.count64 60
  let batchSize ← env.count "BATCH_SIZE" Width.size 1000
  let batchTimeoutMs ← env.count "BATCH_TIMEOUT_MS" Width.count64 5000
  let workerCount ← env.count "WORKER_COUNT" Width.size 4
  let insertMaxRetries ← env.count "INSERT_MAX_RETRIES" Width.count32 3
  let insertRetryBackoffMs ← env.count "INSERT_RETRY_BACKOFF_MS" Width.count64 1000
  let fetchWaitMs ← env.count "FETCH_WAIT_MS" Width.count64 1000
  let statsIntervalSeconds ← env.count "STATS_INTERVAL_SECONDS" Width.count64 30
  return {
    brokers
    topic := env.text "KAFKA_TOPIC" "edr.events.raw"
    groupId := env.text "KAFKA_GROUP_ID" "clickhouse-writer"
    securityProtocol := env.text "KAFKA_SECURITY_PROTOCOL" "PLAINTEXT"
    saslMechanism := env.optional "KAFKA_SASL_MECHANISM"
    saslUsername := env.optional "KAFKA_SASL_USERNAME"
    saslPassword := env.optional "KAFKA_SASL_PASSWORD"
    caLocation := env.optional "KAFKA_SSL_CA_LOCATION"
    sessionTimeoutMs, maxPollIntervalMs, reconnectBackoffMs, reconnectBackoffMaxMs
    createTopics := env.flag "KAFKA_AUTO_CREATE_TOPICS"
    topicPartitions, replicationFactor
    deadLetterTopic := env.text "KAFKA_DLQ_TOPIC" "edr.events.dlq"
    maxDeliver
    storeUrl := env.text "CLICKHOUSE_URL" "http://localhost:8123"
    database := env.text "CLICKHOUSE_DATABASE" "default"
    storeUser := env.text "CLICKHOUSE_USER" "default"
    storePassword := env.optional "CLICKHOUSE_PASSWORD"
    table := env.text "CLICKHOUSE_TABLE" "telemetry_events"
    maxExecutionSeconds, insertTimeoutSeconds
    createTable := env.flag "CLICKHOUSE_CREATE_TABLE"
    batchSize, batchTimeoutMs, workerCount, insertMaxRetries, insertRetryBackoffMs, fetchWaitMs
    statsIntervalSeconds
    healthBind := env.optional "HEALTH_BIND" }

def isIdentifierChar (c : Char) : Bool := c.isAlphanum || c == '_'

def isIdentifier (s : String) : Bool := !s.isEmpty && s.toList.all isIdentifierChar

/-- What settings have to satisfy, in the order in which it is checked. -/
def checks (s : Settings) : List (Bool × SettingsError) := [
  (decide (0 < s.topicPartitions), .notPositive "KAFKA_TOPIC_PARTITIONS"),
  (decide (0 < s.replicationFactor), .notPositive "KAFKA_TOPIC_REPLICATION_FACTOR"),
  (isIdentifier s.database, .notIdentifier "CLICKHOUSE_DATABASE"),
  (isIdentifier s.table, .notIdentifier "CLICKHOUSE_TABLE"),
  (s.batchSize != 0, .zero ["BATCH_SIZE"]),
  (s.workerCount != 0, .zero ["WORKER_COUNT"]),
  (s.batchTimeoutMs != 0 && s.fetchWaitMs != 0, .zero ["BATCH_TIMEOUT_MS", "FETCH_WAIT_MS"]),
  (s.statsIntervalSeconds != 0, .zero ["STATS_INTERVAL_SECONDS"]),
  (s.insertTimeoutSeconds != 0, .zero ["CLICKHOUSE_INSERT_TIMEOUT_SECONDS"])]

def firstFault (s : Settings) : Option SettingsError :=
  (s.checks.find? fun c => !c.1).map Prod.snd

def load (env : Environment) : Except SettingsError Settings := do
  let s ← read env
  match s.firstFault with
  | none => return s
  | some e => throw e

def batchTimeout (s : Settings) : Duration := .ofMillis s.batchTimeoutMs

def fetchWait (s : Settings) : Duration := .ofMillis s.fetchWaitMs

def insertRetryBackoff (s : Settings) : Duration := .ofMillis s.insertRetryBackoffMs

def insertTimeout (s : Settings) : Duration := .ofSeconds s.insertTimeoutSeconds

def statsInterval (s : Settings) : Duration := .ofSeconds s.statsIntervalSeconds

/-- Every wait that is set is a whole number of milliseconds, so the timer rounds none of them. -/
theorem waits_isWhole (s : Settings) :
    s.batchTimeout.IsWhole ∧ s.fetchWait.IsWhole ∧ s.insertRetryBackoff.IsWhole ∧
      s.insertTimeout.IsWhole ∧ s.statsInterval.IsWhole :=
  ⟨Duration.ofMillis_isWhole _, Duration.ofMillis_isWhole _, Duration.ofMillis_isWhole _,
    Duration.ofSeconds_isWhole _, Duration.ofSeconds_isWhole _⟩

def requiredTopics (s : Settings) : List String :=
  if 0 < s.maxDeliver ∧ s.deadLetterTopic ≠ s.topic then [s.topic, s.deadLetterTopic] else [s.topic]

def clientOptions (s : Settings) : List (String × String) :=
  let given (name : String) (value : Option String) := (value.map fun v => (name, v)).toList
  [("bootstrap.servers", s.brokers), ("security.protocol", s.securityProtocol),
    ("reconnect.backoff.ms", toString s.reconnectBackoffMs),
    ("reconnect.backoff.max.ms", toString s.reconnectBackoffMaxMs)]
    ++ given "sasl.mechanism" s.saslMechanism ++ given "sasl.username" s.saslUsername
    ++ given "sasl.password" s.saslPassword ++ given "ssl.ca.location" s.caLocation

end Settings

end EventIngest
