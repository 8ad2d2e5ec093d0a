import EventIngest.Settings.Basic
import EventIngest.Proofs.WholeNumbers
import Mathlib.Data.List.Forall2
/-!
# Valid settings

Every setting but one stands for the value of its own variable, or for a default when the variable
gives nothing but white space. Settings are loaded exactly if the variables meet all demands, and
what is reported otherwise is the first demand that is not met, in the order in which variables are
read and settings are checked.
-/
namespace EventIngest

open Decimal (Width)

namespace Environment

variable {env : Environment} {name value : String}

/-- The variable is set to something other than white space. -/
def Gives (env : Environment) (name value : String) : Prop :=
  env name = some value ∧ Text.isBlank value = false

/-- The variable is not set, or to white space. -/
def Lacks (env : Environment) (name : String) : Prop := ∀ value, ¬ env.Gives name value

theorem optional_eq_some_iff : env.optional name = some value ↔ env.Gives name value := by
  rw [optional, Option.filter_eq_some_iff, Gives, Bool.not_eq_true']

theorem optional_eq_none_iff : env.optional name = none ↔ env.Lacks name := by
  rw [Option.eq_none_iff_forall_ne_some]
  exact forall_congr' fun value => not_congr optional_eq_some_iff

theorem Gives.unique {value' : String} (h : env.Gives name value) (h' : env.Gives name value') :
    value = value' := Option.some.inj (h.1.symm.trans h'.1)

theorem gives_or_lacks (env : Environment) (name : String) :
    (∃ value, env.Gives name value) ∨ env.Lacks name := by
  by_cases h : ∃ value, env.Gives name value
  · exact .inl h
  · exact .inr fun value hGives => h ⟨value, hGives⟩

end Environment

/-- A setting, the variable that it is read from, and what texts of the variable stand for. -/
structure Variable (α : Type) where
  name : String
  default : α
  Reads : String → α → Prop
  setting : Settings → α

namespace Variable

inductive Means {α : Type} (v : Variable α) (env : Environment) : α → Prop
  | default (h : env.Lacks v.name) : v.Means env v.default
  | given {value : String} {a : α} (h : env.Gives v.name value) (hReads : v.Reads value a) :
    v.Means env a

def number (name : String) (width : Width) (default : Int) (setting : Settings → Int) :
    Variable Int := ⟨name, default, width.Reads, setting⟩

def text (name default : String) (setting : Settings → String) : Variable String :=
  ⟨name, default, fun value a => a = value, setting⟩

def option (name : String) (setting : Settings → Option String) : Variable (Option String) :=
  ⟨name, none, fun value a => a = some value, setting⟩

/-- One of four words in any case, with white space around it. -/
def SwitchesOn (value : String) : Prop :=
  ∃ word : String, Text.Framed word.toList value.toList ∧
    Text.lowerAscii word ∈ ["1", "true", "yes", "on"]

def flag (name : String) (setting : Settings → Bool) : Variable Bool :=
  ⟨name, false, fun value a => a = true ↔ SwitchesOn value, setting⟩

end Variable

namespace Settings

open Variable

def topicPartitionsVariable : Variable Int :=
  .number "KAFKA_TOPIC_PARTITIONS" .int32 8 topicPartitions

def replicationFactorVariable : Variable Int :=
  .number "KAFKA_TOPIC_REPLICATION_FACTOR" .int32 1 replicationFactor

def insertTimeoutVariable : Variable Int :=
  .number "CLICKHOUSE_INSERT_TIMEOUT_SECONDS" .count64 60 (·.insertTimeoutSeconds)

def batchSizeVariable : Variable Int := .number "BATCH_SIZE" .size 1000 (·.batchSize)

def batchTimeoutVariable : Variable Int := .number "BATCH_TIMEOUT_MS" .count64 5000 (·.batchTimeoutMs)

def workerCountVariable : Variable Int := .number "WORKER_COUNT" .size 4 (·.workerCount)

def fetchWaitVariable : Variable Int := .number "FETCH_WAIT_MS" .count64 1000 (·.fetchWaitMs)

def statsIntervalVariable : Variable Int :=
  .number "STATS_INTERVAL_SECONDS" .count64 30 (·.statsIntervalSeconds)

def numbers : List (Variable Int) := [
  .number "KAFKA_SESSION_TIMEOUT_MS" .count64 10000 (·.sessionTimeoutMs),
  .number "KAFKA_MAX_POLL_INTERVAL_MS" .count64 60000 (·.maxPollIntervalMs),
  .number "KAFKA_RECONNECT_BACKOFF_MS" .count64 2000 (·.reconnectBackoffMs),
  .number "KAFKA_RECONNECT_BACKOFF_MAX_MS" .count64 20000 (·.reconnectBackoffMaxMs),
  topicPartitionsVariable,
  replicationFactorVariable,
  .number "CONSUMER_MAX_DELIVER" .count32 5 (·.maxDeliver),
  .number "CLICKHOUSE_MAX_EXECUTION_SECONDS" .count64 60 (·.maxExecutionSeconds),
  insertTimeoutVariable,
  batchSizeVariable,
  batchTimeoutVariable,
  workerCountVariable,
  .number "INSERT_MAX_RETRIES" .count32 3 (·.insertMaxRetries),
  .number "INSERT_RETRY_BACKOFF_MS" .count64 1000 (·.insertRetryBackoffMs),
  fetchWaitVariable,
  statsIntervalVariable]

def databaseVariable : Variable String := .text "CLICKHOUSE_DATABASE" "default" database

def tableVariable : Variable String := .text "CLICKHOUSE_TABLE" "telemetry_events" table

def texts : List (Variable String) := [
  .text "KAFKA_TOPIC" "edr.events.raw" topic,
  .text "KAFKA_GROUP_ID" "clickhouse-writer" groupId,
  .text "KAFKA_SECURITY_PROTOCOL" "PLAINTEXT" securityProtocol,
  .text "KAFKA_DLQ_TOPIC" "edr.events.dlq" deadLetterTopic,
  .text "CLICKHOUSE_URL" "http://localhost:8123" storeUrl,
  databaseVariable,
  .text "CLICKHOUSE_USER" "default" storeUser,
  tableVariable]

def options : List (Variable (Option String)) := [
  .option "KAFKA_SASL_MECHANISM" saslMechanism,
  .option "KAFKA_SASL_USERNAME" saslUsername,
  .option "KAFKA_SASL_PASSWORD" saslPassword,
  .option "KAFKA_SSL_CA_LOCATION" caLocation,
  .option "CLICKHOUSE_PASSWORD" storePassword,
  .option "HEALTH_BIND" healthBind]

def flags : List (Variable Bool) := [
  .flag "KAFKA_AUTO_CREATE_TOPICS" createTopics,
  .flag "CLICKHOUSE_CREATE_TABLE" createTable]

def optionalNames : List String :=
  numbers.map (·.name) ++ texts.map (·.name) ++ options.map (·.name) ++ flags.map (·.name)

/-- Every setting is what its own variable stands for. -/
structure Describes (env : Environment) (s : Settings) : Prop where
  brokers : env.Gives "KAFKA_BROKERS" s.brokers
  numbers : ∀ v ∈ numbers, v.Means env (v.setting s)
  texts : ∀ v ∈ texts, v.Means env (v.setting s)
  options : ∀ v ∈ options, v.Means env (v.setting s)
  flags : ∀ v ∈ flags, v.Means env (v.setting s)

inductive Demand where
  | given (name : String)
  | readable (v : Variable Int)
  | positive (vs : List (Variable Int))
  | identifier (v : Variable String)

namespace Demand

def names : Demand → List String
  | given name => [name]
  | readable v => [v.name]
  | positive vs => vs.map (·.name)
  | identifier v => [v.name]

def Met (env : Environment) : Demand → Prop
  | given name => ∃ value, env.Gives name value
  | readable v => ∃ n, v.Means env n
  | positive vs => ∀ v ∈ vs, ∀ n, v.Means env n → 0 < n
  | identifier v => ∀ value, v.Means env value →
    ∀ c ∈ value.toList, c.isAlphanum = true ∨ c = '_'

end Demand

def readingDemands : List Demand := .given "KAFKA_BROKERS" :: numbers.map .readable

def checkingDemands : List Demand := [
  .positive [topicPartitionsVariable],
  .positive [replicationFactorVariable],
  .identifier databaseVariable,
  .identifier tableVariable,
  .positive [batchSizeVariable],
  .positive [workerCountVariable],
  .positive [batchTimeoutVariable, fetchWaitVariable],
  .positive [statsIntervalVariable],
  .positive [insertTimeoutVariable]]

/-- All demands, in the order of the checks: every number is read before any setting is checked. -/
def demands : List Demand := readingDemands ++ checkingDemands

/-- The demand is not met, but all demands before it are. -/
def FirstUnmet (env : Environment) (ds : List Demand) (d : Demand) : Prop :=
  ∃ before after, ds = before ++ d :: after ∧ (∀ m ∈ before, m.Met env) ∧ ¬ d.Met env

end Settings

def SettingsError.names : SettingsError → List String
  | missing name | blank name | notWhole name .. | notPositive name | notIdentifier name => [name]
  | zero names => names

namespace Variable

variable {α : Type} {v : Variable α} {env : Environment} {name : String} {a b : α}

theorem means_iff_of_lacks (h : env.Lacks v.name) : v.Means env a ↔ a = v.default := by
  constructor
  · rintro (- | ⟨hGives, -⟩)
    · rfl
    · exact absurd hGives (h _)
  · rintro rfl
    exact .default h

theorem means_iff_of_gives {value : String} (h : env.Gives v.name value) :
    v.Means env a ↔ v.Reads value a := by
  constructor
  · rintro (hLacks | ⟨hGives, hReads⟩)
    · exact absurd h (hLacks value)
    · rwa [hGives.unique h] at hReads
  · exact .given h

def IsFunctional (v : Variable α) : Prop := ∀ value a b, v.Reads value a → v.Reads value b → a = b

theorem Means.unique (hv : v.IsFunctional) (ha : v.Means env a) (hb : v.Means env b) : a = b := by
  obtain ⟨value, hGives⟩ | hLacks := env.gives_or_lacks v.name
  · rw [means_iff_of_gives hGives] at ha hb
    exact hv value a b ha hb
  · rw [means_iff_of_lacks hLacks] at ha hb
    exact ha.trans hb.symm

theorem number_functional {width : Width} (h : width.holds 0 = true) (default : Int)
    (setting : Settings → Int) : (number name width default setting).IsFunctional := by
  intro value m n hm hn
  exact Except.ok.inj (((Width.reads_iff h).mp hm).symm.trans ((Width.reads_iff h).mp hn))

theorem text_functional (default : String) (setting : Settings → String) :
    (text name default setting).IsFunctional := fun _ _ _ ha hb => ha.trans hb.symm

theorem option_functional (setting : Settings → Option String) :
    (option name setting).IsFunctional := fun _ _ _ ha hb => ha.trans hb.symm

theorem flag_functional (setting : Settings → Bool) : (flag name setting).IsFunctional :=
  fun _ _ _ ha hb => Bool.eq_iff_iff.mpr (ha.trans hb.symm)

theorem number_means_iff {width : Width} (h : width.holds 0 = true) {default n : Int}
    (setting : Settings → Int) :
    (number name width default setting).Means env n ↔ env.whole name width default = .ok n := by
  cases hOptional : env.optional name with
  | none =>
    refine (means_iff_of_lacks (Environment.optional_eq_none_iff.mp hOptional)).trans ?_
    rw [Environment.whole, hOptional]
    exact ⟨fun hn => congrArg Except.ok hn.symm, fun hn => (Except.ok.inj hn).symm⟩
  | some value =>
    refine (means_iff_of_gives (Environment.optional_eq_some_iff.mp hOptional)).trans ?_
    refine (Width.reads_iff h).trans ?_
    simp only [Environment.whole, hOptional]
    cases width.read (Text.trim value) with
    | error reason => exact ⟨nofun, nofun⟩
    | ok m =>
      exact ⟨fun hm => congrArg Except.ok (Except.ok.inj hm),
        fun hm => congrArg Except.ok (Except.ok.inj hm)⟩

theorem text_means (env : Environment) (name default : String) (setting : Settings → String) :
    (text name default setting).Means env (env.text name default) := by
  rw [Environment.text]
  cases hOptional : env.optional name with
  | none => exact .default (Environment.optional_eq_none_iff.mp hOptional)
  | some value => exact .given (Environment.optional_eq_some_iff.mp hOptional) rfl

theorem option_means (env : Environment) (name : String) (setting : Settings → Option String) :
    (option name setting).Means env (env.optional name) := by
  cases hOptional : env.optional name with
  | none => exact .default (Environment.optional_eq_none_iff.mp hOptional)
  | some value => exact .given (Environment.optional_eq_some_iff.mp hOptional) rfl

section Flag

theorem tight_of_onWords {word : String} (h : word ∈ ["1", "true", "yes", "on"]) :
    Text.IsTight word.toList := by
  simp only [List.mem_cons, List.not_mem_nil, or_false] at h
  obtain rfl | rfl | rfl | rfl := h <;> constructor <;> rintro c ⟨⟩ <;> rfl

theorem switchesOn_iff {value : String} :
    SwitchesOn value ↔ Environment.onWords.contains (Text.lowerAscii (Text.trim value)) = true := by
  rw [List.contains_iff_mem]
  constructor
  · rintro ⟨word, hFramed, hWord⟩
    have hTight := tight_of_onWords hWord
    rw [Text.lowerAscii, String.toList_ofList] at hTight
    have hTrim := Text.trim_of_framed (Text.tight_of_lower hTight) hFramed
    rwa [String.toList_injective hTrim]
  · intro h
    exact ⟨Text.trim value, Text.framed_trim value, h⟩

theorem flag_of_lacks (h : env.Lacks name) : env.flag name = false := by
  rw [Environment.flag]
  cases hValue : env name with
  | none => rfl
  | some value =>
    have hBlank : Text.isBlank value = true := by
      cases hBlank : Text.isBlank value with
      | false => exact absurd ⟨hValue, hBlank⟩ (h value)
      | true => rfl
    have hFramed : Text.Framed [] value.toList :=
      ⟨value.toList, [], by simp, List.all_eq_true.mp hBlank, fun _ hc => absurd hc List.not_mem_nil⟩
    have hTrim : Text.trim value = "" :=
      String.toList_injective (Text.trim_of_framed ⟨nofun, nofun⟩ hFramed)
    simp only [hTrim]
    rfl

theorem flag_means (env : Environment) (name : String) (setting : Settings → Bool) :
    (flag name setting).Means env (env.flag name) := by
  obtain ⟨value, hGives⟩ | hLacks := env.gives_or_lacks name
  · refine .given hGives ?_
    rw [Environment.flag, hGives.1]
    exact switchesOn_iff.symm
  · rw [flag_of_lacks hLacks]
    exact .default hLacks

end Flag

end Variable

namespace Settings

open Variable

variable {α β : Type} {env : Environment} {ds es : List Demand} {d : Demand}

/-- A reading gives a result, with some property, only if the variables meet all demands, and fails
only for the first demand that they do not meet. -/
structure Enforces (env : Environment) (ds : List Demand) (P : α → Prop)
    (r : Except SettingsError α) : Prop where
  ok : ∀ a, r = .ok a → (∀ d ∈ ds, d.Met env) ∧ P a
  error : ∀ e, r = .error e → ∃ d, FirstUnmet env ds d ∧ e.names = d.names

namespace FirstUnmet

theorem mem (h : FirstUnmet env ds d) : d ∈ ds := by
  obtain ⟨before, after, rfl, -, -⟩ := h
  exact List.mem_append_right before List.mem_cons_self

theorem unmet (h : FirstUnmet env ds d) : ¬ d.Met env := by
  obtain ⟨-, -, -, -, hUnmet⟩ := h
  exact hUnmet

theorem head (h : ¬ d.Met env) : FirstUnmet env (d :: ds) d := ⟨[], ds, rfl, nofun, h⟩

theorem append_left (h : FirstUnmet env ds d) : FirstUnmet env (ds ++ es) d := by
  obtain ⟨before, after, rfl, hMet, hUnmet⟩ := h
  exact ⟨before, after ++ es, by simp, hMet, hUnmet⟩

theorem append_right (hMet : ∀ m ∈ ds, m.Met env) (h : FirstUnmet env es d) :
    FirstUnmet env (ds ++ es) d := by
  obtain ⟨before, after, rfl, hBefore, hUnmet⟩ := h
  refine ⟨ds ++ before, after, by simp, ?_, hUnmet⟩
  intro m hm
  obtain hm | hm := List.mem_append.mp hm
  · exact hMet m hm
  · exact hBefore m hm

end FirstUnmet

namespace Enforces

variable {P : α → Prop} {Q : β → Prop}

theorem pure {a : α} (h : P a) : Enforces env [] P (.ok a) where
  ok _ ha := ⟨nofun, Except.ok.inj ha ▸ h⟩
  error _ := nofun

theorem accept {a : α} (hMet : d.Met env) (h : P a) : Enforces env [d] P (.ok a) where
  ok _ ha := ⟨fun _ hd => List.mem_singleton.mp hd ▸ hMet, Except.ok.inj ha ▸ h⟩
  error _ := nofun

theorem refuse {e : SettingsError} (hUnmet : ¬ d.Met env) (hNames : e.names = d.names) :
    Enforces env (d :: ds) P (.error e) where
  ok _ := nofun
  error _ he := ⟨d, .head hUnmet, Except.error.inj he ▸ hNames⟩

theorem bind {x : Except SettingsError α} {f : α → Except SettingsError β}
    (hx : Enforces env ds P x) (hf : ∀ a, P a → Enforces env es Q (f a)) :
    Enforces env (ds ++ es) Q (x >>= f) := by
  cases x with
  | error e =>
    refine ⟨nofun, fun e' he => ?_⟩
    obtain ⟨d, hFirst, hNames⟩ := hx.error e rfl
    exact ⟨d, hFirst.append_left, Except.error.inj he ▸ hNames⟩
  | ok a =>
    obtain ⟨hMet, hP⟩ := hx.ok a rfl
    refine ⟨fun b hb => ?_, fun e he => ?_⟩
    · obtain ⟨hRest, hQ⟩ := (hf a hP).ok b hb
      refine ⟨fun d hd => ?_, hQ⟩
      obtain hd | hd := List.mem_append.mp hd
      · exact hMet d hd
      · exact hRest d hd
    · obtain ⟨d, hFirst, hNames⟩ := (hf a hP).error e he
      exact ⟨d, hFirst.append_right hMet, hNames⟩

theorem met {r : Except SettingsError α} (hMet : d.Met env) (h : Enforces env ds P r) :
    Enforces env (d :: ds) P r where
  ok a ha := ⟨List.forall_mem_cons.mpr ⟨hMet, (h.ok a ha).1⟩, (h.ok a ha).2⟩
  error e he := by
    obtain ⟨d', hFirst, hNames⟩ := h.error e he
    have hHead : ∀ m ∈ [d], m.Met env := fun m hm => List.mem_singleton.mp hm ▸ hMet
    exact ⟨d', hFirst.append_right hHead, hNames⟩

theorem step {x : Except SettingsError α} {f : α → Except SettingsError β}
    (hx : Enforces env [d] P x) (hf : ∀ a, P a → Enforces env es Q (f a)) :
    Enforces env (d :: es) Q (x >>= f) := hx.bind hf

end Enforces

theorem required_enforces (env : Environment) (name : String) :
    Enforces env [.given name] (env.Gives name) (env.required name) := by
  cases hValue : env name with
  | none =>
    simp only [Environment.required, hValue]
    refine .refuse ?_ rfl
    rintro ⟨value, hSome, -⟩
    rw [hValue] at hSome
    cases hSome
  | some value =>
    cases hBlank : Text.isBlank value with
    | true =>
      simp only [Environment.required, hValue, hBlank, if_true]
      refine .refuse ?_ rfl
      rintro ⟨other, hSome, hOther⟩
      rw [Option.some.inj (hValue.symm.trans hSome), hOther] at hBlank
      cases hBlank
    | false =>
      simp only [Environment.required, hValue, hBlank, Bool.false_eq_true, if_false]
      have hGives : env.Gives name value := ⟨hValue, hBlank⟩
      exact .accept ⟨value, hGives⟩ hGives

theorem names_of_whole {width : Width} {name : String} {default : Int} {e : SettingsError}
    (h : env.whole name width default = .error e) : e.names = [name] := by
  rw [Environment.whole] at h
  split at h
  · cases h
  · split at h <;> cases h
    rfl

section Reading

variable {width : Width} (env : Environment) (name : String)

theorem whole_enforces (h : width.holds 0 = true) (default : Int) (setting : Settings → Int) :
    Enforces env [.readable (.number name width default setting)]
      ((Variable.number name width default setting).Means env) (env.whole name width default) := by
  cases hWhole : env.whole name width default with
  | ok n =>
    have hMeans := (number_means_iff h setting).mpr hWhole
    exact .accept ⟨n, hMeans⟩ hMeans
  | error e =>
    refine .refuse ?_ (names_of_whole hWhole)
    rintro ⟨n, hMeans⟩
    rw [number_means_iff h, hWhole] at hMeans
    cases hMeans

theorem count_enforces (h : width.holds 0 = true) (hCount : width.least = 0) (default : Nat)
    (setting : Settings → Int) :
    Enforces env [.readable (.number name width default setting)]
      (fun n : Nat => (Variable.number name width default setting).Means env n)
      (env.count name width default) := by
  -- No such number is negative, so none is lost as a natural number.
  have hNat {n : Int} (hMeans : (Variable.number name width default setting).Means env n) :
      (n.toNat : Int) = n := by
    cases hMeans with
    | default _ => exact Int.toNat_of_nonneg (Int.natCast_nonneg default)
    | given _ hReads =>
      obtain ⟨-, -, -, hHolds⟩ := hReads
      exact Int.toNat_of_nonneg (hCount ▸ (of_decide_eq_true hHolds).1)
  have hWhole := whole_enforces env name h default setting
  rw [Environment.count]
  cases hRead : env.whole name width default with
  | ok n =>
    obtain ⟨hMet, hMeans⟩ := hWhole.ok n hRead
    exact .accept (hMet _ List.mem_cons_self) ((hNat hMeans).symm ▸ hMeans)
  | error e =>
    obtain ⟨d, hFirst, hNames⟩ := hWhole.error e hRead
    obtain rfl := List.mem_singleton.mp hFirst.mem
    exact .refuse hFirst.unmet hNames

end Reading

theorem read_enforces (env : Environment) :
    Enforces env readingDemands (Describes env) (read env) := by
  -- Texts, options and flags have a meaning whatever they are, so only the others add demands.
  refine (required_enforces env _).step fun brokers hBrokers => ?_
  refine (count_enforces env _ rfl rfl _ _).step fun sessionTimeout hSessionTimeout => ?_
  refine (count_enforces env _ rfl rfl _ _).step fun maxPollInterval hMaxPollInterval => ?_
  refine (count_enforces env _ rfl rfl _ _).step fun reconnectBackoff hReconnectBackoff => ?_
  refine (count_enforces env _ rfl rfl _ _).step fun reconnectBackoffMax hReconnectBackoffMax => ?_
  refine (whole_enforces env _ rfl _ _).step fun topicPartitions hTopicPartitions => ?_
  refine (whole_enforces env _ rfl _ _).step fun replicationFactor hReplicationFactor => ?_
  refine (count_enforces env _ rfl rfl _ _).step fun maxDeliver hMaxDeliver => ?_
  refine (count_enforces env _ rfl rfl _ _).step fun maxExecution hMaxExecution => ?_
  refine (count_enforces env _ rfl rfl _ _).step fun insertTimeout hInsertTimeout => ?_
  refine (count_enforces env _ rfl rfl _ _).step fun batchSize hBatchSize => ?_
  refine (count_enforces env _ rfl rfl _ _).step fun batchTimeout hBatchTimeout => ?_
  refine (count_enforces env _ rfl rfl _ _).step fun workerCount hWorkerCount => ?_
  refine (count_enforces env _ rfl rfl _ _).step fun maxRetries hMaxRetries => ?_
  refine (count_enforces env _ rfl rfl _ _).step fun retryBackoff hRetryBackoff => ?_
  refine (count_enforces env _ rfl rfl _ _).step fun fetchWait hFetchWait => ?_
  refine (count_enforces env _ rfl rfl _ _).step fun statsInterval hStatsInterval => ?_
  refine .pure ⟨hBrokers, ?_, ?_, ?_, ?_⟩
  · simp only [numbers, List.forall_mem_cons]
    exact ⟨hSessionTimeout, hMaxPollInterval, hReconnectBackoff, hReconnectBackoffMax,
      hTopicPartitions, hReplicationFactor, hMaxDeliver, hMaxExecution, hInsertTimeout, hBatchSize,
      hBatchTimeout, hWorkerCount, hMaxRetries, hRetryBackoff, hFetchWait, hStatsInterval, nofun⟩
  · simp only [texts, List.forall_mem_cons]
    exact ⟨text_means env _ _ _, text_means env _ _ _, text_means env _ _ _, text_means env _ _ _,
      text_means env _ _ _, text_means env _ _ _, text_means env _ _ _, text_means env _ _ _, nofun⟩
  · simp only [options, List.forall_mem_cons]
    exact ⟨option_means env _ _, option_means env _ _, option_means env _ _, option_means env _ _,
      option_means env _ _, option_means env _ _, nofun⟩
  · simp only [flags, List.forall_mem_cons]
    exact ⟨flag_means env _ _, flag_means env _ _, nofun⟩

theorem isIdentifierChar_iff {c : Char} :
    isIdentifierChar c = true ↔ c.isAlphanum = true ∨ c = '_' := by
  rw [isIdentifierChar, Bool.or_eq_true, beq_iff_eq]

/-- A text that a variable stands for is not empty, unless the default is. -/
theorem text_ne_empty {name default value : String} {setting : Settings → String}
    (h : (Variable.text name default setting).Means env value) (hDefault : default ≠ "") :
    value ≠ "" := by
  cases h with
  | default _ => exact hDefault
  | given hGives hReads =>
    subst hReads
    rintro rfl
    cases hGives.2

theorem identifier_met_iff {name default : String} {setting : Settings → String} {s : Settings}
    (hMeans : (Variable.text name default setting).Means env (setting s)) (hDefault : default ≠ "") :
    (Demand.identifier (.text name default setting)).Met env ↔ isIdentifier (setting s) = true := by
  have hSome := text_ne_empty hMeans hDefault
  rw [isIdentifier, Bool.and_eq_true, Bool.not_eq_true', List.all_eq_true]
  simp only [isIdentifierChar_iff, String.isEmpty_eq_false_iff, hSome, ne_eq, not_false_eq_true,
    true_and]
  constructor
  · exact fun h => h _ hMeans
  · intro h value hValue
    rwa [hValue.unique (text_functional default setting) hMeans]

/-- A check and a demand that agree, and are about the same variables. -/
def Agrees (env : Environment) (c : Bool × SettingsError) (d : Demand) : Prop :=
  (c.1 = true ↔ d.Met env) ∧ c.2.names = d.names

theorem numbers_functional : ∀ v ∈ numbers, v.IsFunctional := by
  simp only [numbers, List.forall_mem_cons]
  refine ⟨?_, ?_, ?_, ?_, ?_, ?_, ?_, ?_, ?_, ?_, ?_, ?_, ?_, ?_, ?_, ?_, nofun⟩ <;>
    exact number_functional rfl _ _

theorem positive_met_iff {s : Settings} (h : Describes env s) {vs : List (Variable Int)}
    (hvs : vs ⊆ numbers) : (Demand.positive vs).Met env ↔ ∀ v ∈ vs, 0 < v.setting s := by
  constructor
  · intro hMet v hv
    exact hMet v hv _ (h.numbers v (hvs hv))
  · intro hPositive v hv n hn
    rw [hn.unique (numbers_functional v (hvs hv)) (h.numbers v (hvs hv))]
    exact hPositive v hv

theorem nonzero_iff {n : Nat} : (n != 0) = true ↔ 0 < (n : Int) := by
  rw [bne_iff_ne, Nat.ne_zero_iff_zero_lt, Int.natCast_pos]

theorem checks_agree {s : Settings} (h : Describes env s) :
    List.Forall₂ (Agrees env) s.checks checkingDemands := by
  have hOne (v : Variable Int) (hv : v ∈ numbers) :
      (Demand.positive [v]).Met env ↔ 0 < v.setting s := by
    rw [positive_met_iff h (List.cons_subset.mpr ⟨hv, List.nil_subset _⟩), List.forall_mem_singleton]
  have hTwo : (Demand.positive [batchTimeoutVariable, fetchWaitVariable]).Met env ↔
      0 < (s.batchTimeoutMs : Int) ∧ 0 < (s.fetchWaitMs : Int) := by
    rw [positive_met_iff h (by simp [numbers]), List.forall_mem_cons, List.forall_mem_singleton]
    rfl
  have hDatabase : databaseVariable.Means env s.database := h.texts _ (by simp [texts])
  have hTable : tableVariable.Means env s.table := h.texts _ (by simp [texts])
  simp only [checks, checkingDemands, List.forall₂_cons, Agrees]
  refine ⟨⟨?_, rfl⟩, ⟨?_, rfl⟩, ⟨?_, rfl⟩, ⟨?_, rfl⟩, ⟨?_, rfl⟩, ⟨?_, rfl⟩, ⟨?_, rfl⟩, ⟨?_, rfl⟩,
    ⟨?_, rfl⟩, .nil⟩
  · exact decide_eq_true_iff.trans (hOne topicPartitionsVariable (by simp [numbers])).symm
  · exact decide_eq_true_iff.trans (hOne replicationFactorVariable (by simp [numbers])).symm
  · exact (identifier_met_iff hDatabase (by decide)).symm
  · exact (identifier_met_iff hTable (by decide)).symm
  · exact nonzero_iff.trans (hOne batchSizeVariable (by simp [numbers])).symm
  · exact nonzero_iff.trans (hOne workerCountVariable (by simp [numbers])).symm
  · rw [hTwo, Bool.and_eq_true, nonzero_iff, nonzero_iff]
  · exact nonzero_iff.trans (hOne statsIntervalVariable (by simp [numbers])).symm
  · exact nonzero_iff.trans (hOne insertTimeoutVariable (by simp [numbers])).symm

theorem firstFault_enforces {s : Settings} {cs : List (Bool × SettingsError)}
    (h : List.Forall₂ (Agrees env) cs ds) :
    Enforces env ds (· = s)
      (match (cs.find? fun c => !c.1).map Prod.snd with
        | none => .ok s
        | some e => .error e) := by
  induction h with
  | nil => exact .pure rfl
  | @cons c d cs ds hHead hRest ih =>
    obtain ⟨ok, fault⟩ := c
    cases ok with
    | true => exact ih.met (hHead.1.mp rfl)
    | false => exact .refuse (fun hMet => Bool.false_ne_true (hHead.1.mpr hMet)) hHead.2

theorem load_enforces (env : Environment) : Enforces env demands (Describes env) (load env) := by
  refine (read_enforces env).bind fun s hs => ?_
  obtain ⟨hOk, hError⟩ := firstFault_enforces (s := s) (checks_agree hs)
  refine ⟨fun t ht => ?_, fun e he => ?_⟩
  · obtain ⟨hMet, rfl⟩ := hOk t ht
    exact ⟨hMet, hs⟩
  · exact hError e he

theorem texts_functional : ∀ v ∈ texts, v.IsFunctional := by
  simp only [texts, List.forall_mem_cons]
  refine ⟨?_, ?_, ?_, ?_, ?_, ?_, ?_, ?_, nofun⟩ <;> exact text_functional _ _

theorem options_functional : ∀ v ∈ options, v.IsFunctional := by
  simp only [options, List.forall_mem_cons]
  refine ⟨?_, ?_, ?_, ?_, ?_, ?_, nofun⟩ <;> exact option_functional _

theorem flags_functional : ∀ v ∈ flags, v.IsFunctional := by
  simp only [flags, List.forall_mem_cons]
  refine ⟨?_, ?_, nofun⟩ <;> exact flag_functional _

/-- Every setting has a variable of its own, so no setting is left open. -/
theorem Describes.unique {s t : Settings} (hs : Describes env s) (ht : Describes env t) : s = t := by
  have hBrokers := hs.brokers.unique ht.brokers
  have hNumbers : ∀ v ∈ Settings.numbers, v.setting s = v.setting t := fun v hv =>
    (hs.numbers v hv).unique (numbers_functional v hv) (ht.numbers v hv)
  have hTexts : ∀ v ∈ Settings.texts, v.setting s = v.setting t := fun v hv =>
    (hs.texts v hv).unique (texts_functional v hv) (ht.texts v hv)
  have hOptions : ∀ v ∈ Settings.options, v.setting s = v.setting t := fun v hv =>
    (hs.options v hv).unique (options_functional v hv) (ht.options v hv)
  have hFlags : ∀ v ∈ Settings.flags, v.setting s = v.setting t := fun v hv =>
    (hs.flags v hv).unique (flags_functional v hv) (ht.flags v hv)
  simp only [Settings.numbers, List.forall_mem_cons, number, topicPartitionsVariable,
    replicationFactorVariable, insertTimeoutVariable, batchSizeVariable, batchTimeoutVariable,
    workerCountVariable, fetchWaitVariable, statsIntervalVariable, Int.natCast_inj] at hNumbers
  simp only [Settings.texts, List.forall_mem_cons, text, databaseVariable, tableVariable] at hTexts
  simp only [Settings.options, List.forall_mem_cons, option] at hOptions
  simp only [Settings.flags, List.forall_mem_cons, flag] at hFlags
  cases s
  cases t
  grind

theorem flag_eq (env : Environment) (name : String) :
    env.flag name = (env.optional name).elim false
      fun value => Environment.onWords.contains (Text.lowerAscii (Text.trim value)) := by
  cases hOptional : env.optional name with
  | none => exact flag_of_lacks (Environment.optional_eq_none_iff.mp hOptional)
  | some value =>
    obtain ⟨hValue, -⟩ := Environment.optional_eq_some_iff.mp hOptional
    rw [Environment.flag, hValue, Option.elim_some]

/-- Two environments that differ in no more than in what variables are left out, or blank. -/
structure Alike (env env' : Environment) : Prop where
  brokers : env' "KAFKA_BROKERS" = env "KAFKA_BROKERS"
  others : ∀ name ∈ optionalNames, env' name = env name ∨ (env.Lacks name ∧ env'.Lacks name)

namespace Alike

variable {env' : Environment}

theorem optional_eq (h : Alike env env') :
    ∀ name ∈ optionalNames, env'.optional name = env.optional name := by
  intro name hName
  obtain hSame | ⟨hLacks, hLacks'⟩ := h.others name hName
  · rw [Environment.optional, Environment.optional, hSame]
  · rw [Environment.optional_eq_none_iff.mpr hLacks, Environment.optional_eq_none_iff.mpr hLacks']

theorem read_eq (h : Alike env env') : read env' = read env := by
  have hRequired : env'.required "KAFKA_BROKERS" = env.required "KAFKA_BROKERS" := by
    rw [Environment.required, Environment.required, h.brokers]
  have hWhole (name : String) (width : Width) (default : Int)
      (hName : env'.optional name = env.optional name) :
      env'.whole name width default = env.whole name width default := by
    rw [Environment.whole, Environment.whole, hName]
  have hCount (name : String) (width : Width) (default : Nat)
      (hName : env'.optional name = env.optional name) :
      env'.count name width default = env.count name width default := by
    rw [Environment.count, Environment.count, hWhole name width default hName]
  have hOptional := h.optional_eq
  simp only [optionalNames, numbers, texts, options, flags, number, text, option, flag,
    topicPartitionsVariable, replicationFactorVariable, insertTimeoutVariable, batchSizeVariable,
    batchTimeoutVariable, workerCountVariable, fetchWaitVariable, statsIntervalVariable,
    databaseVariable, tableVariable, List.map_cons, List.map_nil, List.forall_mem_append,
    List.forall_mem_cons] at hOptional
  simp only [read, hRequired, hWhole, hCount, Environment.text, flag_eq, hOptional]

theorem load_eq (h : Alike env env') : load env' = load env := by rw [load, load, h.read_eq]

end Alike

end Settings

def SettingsError.Mentions (e : SettingsError) (name : String) : Prop :=
  ∃ before after, e.message = before ++ name ++ after

theorem mem_intercalate (separator : String) (names : List String) {name : String}
    (h : name ∈ names) :
    ∃ before after, String.intercalate separator names = before ++ name ++ after := by
  induction names with
  | nil => cases h
  | cons first rest ih =>
    cases rest with
    | nil =>
      obtain rfl := List.mem_singleton.mp h
      exact ⟨"", "", by simp⟩
    | cons second rest =>
      rw [String.intercalate_cons_cons]
      obtain rfl | hRest := List.mem_cons.mp h
      · exact ⟨"", _, by rw [String.empty_append, String.append_assoc]⟩
      · obtain ⟨before, after, hText⟩ := ih hRest
        exact ⟨first ++ separator ++ before, after, by rw [hText]; simp only [String.append_assoc]⟩

theorem SettingsError.mentions_names (e : SettingsError) : ∀ name ∈ e.names, e.Mentions name := by
  intro name hName
  cases e with
  | missing other =>
    obtain rfl := List.mem_singleton.mp hName
    exact ⟨"missing env var: ", "", String.append_empty.symm⟩
  | blank other =>
    obtain rfl := List.mem_singleton.mp hName
    exact ⟨"env var ", _, rfl⟩
  | notWhole other width reason =>
    obtain rfl := List.mem_singleton.mp hName
    exact ⟨"invalid " ++ width ++ " for ", _, String.append_assoc⟩
  | notPositive other =>
    obtain rfl := List.mem_singleton.mp hName
    exact ⟨"", " must be a positive integer", congrArg (· ++ _) String.empty_append.symm⟩
  | notIdentifier other =>
    obtain rfl := List.mem_singleton.mp hName
    exact ⟨"", " must contain only letters, digits and underscores",
      congrArg (· ++ _) String.empty_append.symm⟩
  | zero others =>
    obtain ⟨before, after, hText⟩ := mem_intercalate " and " others hName
    exact ⟨before, after ++ " must be greater than 0",
      (congrArg (· ++ _) hText).trans String.append_assoc⟩

namespace Settings

/-- Settings are loaded exactly if the variables meet all demands, each setting then is what its own
variable stands for, and otherwise the error is about the first demand that is not met. What is
blank counts as absent, and variables that nothing is read from do not matter. -/
theorem accepted_exactly_when_valid (env : Environment) :
    ((∃ s, load env = .ok s) ↔ ∀ d ∈ demands, d.Met env) ∧
      (∀ s, load env = .ok s ↔ (∀ d ∈ demands, d.Met env) ∧ Describes env s) ∧
      (∀ e, load env = .error e →
        ∃ d, FirstUnmet env demands d ∧ e.names = d.names ∧ ∀ name ∈ d.names, e.Mentions name) ∧
      ∀ env', Alike env env' → load env' = load env := by
  have hLoad := load_enforces env
  have hValid (hMet : ∀ d ∈ demands, d.Met env) : ∃ s, load env = .ok s := by
    cases hResult : load env with
    | ok s => exact ⟨s, rfl⟩
    | error e =>
      obtain ⟨d, hFirst, -⟩ := hLoad.error e hResult
      exact absurd (hMet d hFirst.mem) hFirst.unmet
  refine ⟨⟨?_, hValid⟩, fun s => ⟨hLoad.ok s, ?_⟩, ?_, fun env' h => h.load_eq⟩
  · rintro ⟨s, hs⟩
    exact (hLoad.ok s hs).1
  · rintro ⟨hMet, hDescribes⟩
    obtain ⟨t, ht⟩ := hValid hMet
    rw [ht, hDescribes.unique (hLoad.ok t ht).2]
  · intro e he
    obtain ⟨d, hFirst, hNames⟩ := hLoad.error e he
    exact ⟨d, hFirst, hNames, hNames ▸ e.mentions_names⟩

def listed (pairs : List (String × String)) : Environment := fun name => pairs.lookup name

def plainVariables : List (String × String) := [
  ("KAFKA_BROKERS", "a:9092"), ("BATCH_SIZE", " +250 "), ("CLICKHOUSE_CREATE_TABLE", " YES ")]

/-- Variables with three faults, of which the one in the table's name is checked first. -/
def faultyVariables : List (String × String) := [
  ("KAFKA_BROKERS", "a:9092"), ("FETCH_WAIT_MS", "0"), ("WORKER_COUNT", "0"),
  ("CLICKHOUSE_TABLE", "a-b")]

theorem blank_topic_and_faults :
    (∃ s, load (listed plainVariables) = .ok s ∧ Describes (listed plainVariables) s ∧
        s.batchSize = 250 ∧ s.createTable = true ∧ s.topic = "edr.events.raw") ∧
      load (listed (("KAFKA_TOPIC", " \u2003") :: ("HOME", "/root") :: plainVariables)) =
        load (listed plainVariables) ∧
      ∃ d, FirstUnmet (listed faultyVariables) demands d ∧ d.names = ["CLICKHOUSE_TABLE"] := by
  obtain ⟨-, hSettings, -, hAlike⟩ := accepted_exactly_when_valid (listed plainVariables)
  obtain ⟨-, -, hError, -⟩ := accepted_exactly_when_valid (listed faultyVariables)
  obtain ⟨d, hFirst, hNames, -⟩ := hError (.notIdentifier "CLICKHOUSE_TABLE") rfl
  refine ⟨⟨_, rfl, ((hSettings _).mp rfl).2, by decide +kernel, by decide +kernel, by decide +kernel⟩,
    hAlike _ ⟨rfl, ?_⟩, d, hFirst, hNames.symm⟩
  intro name hName
  by_cases hTopic : name = "KAFKA_TOPIC"
  · subst hTopic
    refine .inr ⟨?_, ?_⟩ <;> exact Environment.optional_eq_none_iff.mp (by decide +kernel)
  · have hHome : name ≠ "HOME" := by
      rintro rfl
      revert hName
      decide +kernel
    left
    simp only [listed, List.lookup_cons, beq_eq_false_iff_ne.mpr hTopic,
      beq_eq_false_iff_ne.mpr hHome]

end Settings

end EventIngest
