import EventIngest.Duration
/-!
# Failures of sources and stores
-/
namespace EventIngest

inductive SourceError where
  | deadLetter (reason : String)
  | closed
  deriving DecidableEq, Repr

def SourceError.message : SourceError → String
  | .deadLetter reason => "dead-letter publish failed: " ++ reason
  | .closed => "message source closed"

inductive StoreError where
  | server (message : String)
  | timeout (limit : Duration)
  | rejected (reason : String)
  deriving DecidableEq, Repr

def StoreError.message : StoreError → String
  | .server message => "clickhouse error: " ++ message
  | .timeout limit => "insert did not finish within " ++ limit.text
  | .rejected reason => "store rejected batch: " ++ reason

/-- How a batch fared whose every attempt failed. -/
structure InsertError where
  size : Nat
  attempts : Nat
  last : StoreError
  deriving DecidableEq, Repr

def InsertError.message (e : InsertError) : String :=
  "insert of " ++ toString e.size ++ " events failed after " ++ toString e.attempts
    ++ " attempts: " ++ e.last.message

end EventIngest
