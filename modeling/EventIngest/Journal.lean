import EventIngest.Message
import EventIngest.Failure
import EventIngest.Event.Row
import EventIngest.Report
/-!
# The journal

What happens during a run: the calls to sources and stores with their results, and the notices that
an operator reads. A notice has a level, a text and named values.
-/
namespace EventIngest

inductive Level where
  | debug
  | info
  | warning
  | error
  deriving DecidableEq, Repr

def Level.name : Level → String
  | .debug => "DEBUG"
  | .info => "INFO"
  | .warning => "WARN"
  | .error => "ERROR"

inductive Value where
  | integer (n : Int)
  | real (x : Float)
  | text (s : String)

inductive Notice where
  | workerStarted
  | workerStopped
  | workerLost
  | poolStarted (workers : Nat)
  | poolStopped
  | fetchFailed (e : SourceError)
  | lastFlush (size : Nat)
  | batchInserted (size attempt : Nat)
  | insertFailed (size attempt : Nat) (pause : Duration) (e : StoreError)
  | batchFlushed (size attempts : Nat) (elapsed : Duration)
  | batchReturned (size attempts : Nat) (e : StoreError)
  | undecodable (handle : Handle) (e : DecodeError)
  | ackFailed (handle : Handle) (e : SourceError)
  | nakFailed (handle : Handle) (e : SourceError)
  | commitFailed (e : SourceError)
  | deadLetterAckFailed (handle : Handle) (e : SourceError)
  | deadLetterFailed (handle : Handle) (e : SourceError)
  | growth (report : Report)
  | totals (counters : Counters)

namespace Notice

def level : Notice → Level
  | workerStarted | workerStopped | poolStarted _ | poolStopped | lastFlush _ | growth _
  | totals _ => .info
  | batchInserted .. | batchFlushed .. => .debug
  | workerLost | batchReturned .. => .error
  | fetchFailed _ | insertFailed .. | undecodable .. | ackFailed .. | nakFailed .. | commitFailed _
  | deadLetterAckFailed .. | deadLetterFailed .. => .warning

def text : Notice → String
  | workerStarted => "worker started"
  | workerStopped => "worker stopped"
  | workerLost => "worker task ended abnormally"
  | poolStarted _ => "starting consumer workers"
  | poolStopped => "all consumer workers stopped"
  | fetchFailed _ => "fetch failed"
  | lastFlush _ => "flushing buffered events before shutdown"
  | batchInserted .. => "batch inserted"
  | insertFailed .. => "batch insert failed; retrying"
  | batchFlushed .. => "batch flushed"
  | batchReturned .. => "batch insert failed; returning messages for redelivery"
  | undecodable .. => "failed to decode event"
  | ackFailed .. => "failed to ack message"
  | nakFailed .. => "failed to nak message"
  | commitFailed _ => "offset commit failed"
  | deadLetterAckFailed .. => "failed to ack dead-lettered message"
  | deadLetterFailed .. => "dead-letter publish failed; message stays pending"
  | growth _ => "pipeline stats"
  | totals _ => "final pipeline stats"

/-- Whole milliseconds, modulo `2 ^ 64`. -/
def shownMillis (d : Duration) : Int := (d.millis % 0x10000000000000000 : Nat)

def place (h : Handle) : List (String × Value) :=
  [("partition", .integer h.partition), ("offset", .integer h.offset)]

def values : Notice → List (String × Value)
  | workerStarted | workerStopped | workerLost | poolStopped => []
  | poolStarted n => [("workers", .integer n)]
  | fetchFailed e | commitFailed e => [("error", .text e.message)]
  | lastFlush n => [("batch_len", .integer n)]
  | batchInserted n attempt => [("batch_len", .integer n), ("attempt", .integer attempt)]
  | insertFailed n attempt pause e =>
    [("batch_len", .integer n), ("attempt", .integer attempt),
      ("backoff_ms", .integer (shownMillis pause)), ("error", .text e.message)]
  | batchFlushed n attempts elapsed =>
    [("batch_len", .integer n), ("attempts", .integer attempts),
      ("elapsed_ms", .integer (shownMillis elapsed))]
  | batchReturned n attempts e =>
    [("batch_len", .integer n), ("attempts", .integer attempts), ("error", .text e.message)]
  | undecodable h e =>
    place h ++ [("delivery_count", .integer h.deliveryCount), ("error", .text e.message)]
  | ackFailed h e | nakFailed h e => place h ++ [("error", .text e.message)]
  | deadLetterAckFailed h e | deadLetterFailed h e =>
    [("offset", .integer h.offset), ("error", .text e.message)]
  | growth r =>
    [("processed_per_sec", .real (roundHundredths r.growth.processedRate)),
      ("inserted_per_sec", .real (roundHundredths r.growth.insertedRate)),
      ("batches_per_sec", .real (roundHundredths r.growth.batchesRate)),
      ("total_processed", .integer r.totals.processed.toNat),
      ("total_inserted", .integer r.totals.inserted.toNat),
      ("total_errors", .integer r.totals.errors.toNat)]
  | totals c =>
    [("total_processed", .integer c.processed.toNat), ("total_inserted", .integer c.inserted.toNat),
      ("total_batches", .integer c.batches.toNat), ("total_errors", .integer c.errors.toNat)]

end Notice

/-- A call with its result, or a notice. -/
inductive Happening where
  | notice (n : Notice)
  | fetch (max : Nat) (wait : Duration)
  | fetched (result : Except SourceError (List Delivery))
  | fetchStalled
  | ack (handle : Handle) (result : Except SourceError Unit)
  | nak (handle : Handle) (result : Except SourceError Unit)
  | commit (result : Except SourceError Unit)
  | deadLetter (handle : Handle) (raw : List UInt8) (reason : String)
      (result : Except SourceError Unit)
  | insert (rows : List Row)
  | inserted (rows : List Row) (result : Except StoreError Unit)

end EventIngest
