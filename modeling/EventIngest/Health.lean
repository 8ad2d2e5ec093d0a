import EventIngest.Json.Record
import EventIngest.Pool
/-!
# Health

What the pool answers to requests about its health, its readiness and its totals.
-/
namespace EventIngest

namespace Health

def version : String := "0.1.0"

structure Response where
  status : Nat
  contentType : Option String
  allow : Option String
  body : String
  deriving DecidableEq, Repr

inductive Page where
  | health
  | ready
  | stats
  deriving DecidableEq, Repr

/-- What follows the scheme of an absolute target. -/
def dropScheme : List Char → List Char
  | ':' :: '/' :: '/' :: rest => rest
  | _ :: rest => dropScheme rest
  | [] => []

def endsAuthority (c : Char) : Bool := c == '/' || c == '?' || c == '#'

def endsPath (c : Char) : Bool := c == '?' || c == '#'

/-- The path of a request's target. An absolute target has a scheme and an authority before its
path; a query or a fragment after the path does not matter. -/
def pathOf (target : String) : String :=
  let cs := target.toList
  let path := if cs.head? = some '/' then cs else (dropScheme cs).dropWhile (!endsAuthority ·)
  String.ofList (path.takeWhile (!endsPath ·))

def Page.ofPath (path : String) : Option Page :=
  if path = "/health" then some .health
  else if path = "/ready" then some .ready
  else if path = "/stats" then some .stats
  else none

def json (status : Nat) (members : Json.Members) : Response :=
  ⟨status, some "application/json", none, Json.writeObject members⟩

def ready (s : PoolStatus) : Response :=
  if s.shuttingDown then
    json 503 [("reason", .text "shutting down"), ("status", .text "not_ready")]
  else if s.isReady then
    json 200 [("status", .text "ready"), ("version", .text version), ("workers", .whole s.live)]
  else
    json 503 [("expected_workers", .whole s.expected), ("live_workers", .whole s.live),
      ("reason", .text "consumer workers not running"), ("status", .text "not_ready")]

def stats (c : Counters) : Response :=
  json 200 [("processed", .whole c.processed.toNat), ("inserted", .whole c.inserted.toNat),
    ("batches", .whole c.batches.toNat), ("errors", .whole c.errors.toNat)]

def Page.response (s : PoolStatus) (c : Counters) : Page → Response
  | .health => json 200 [("status", .text "ok")]
  | .ready => Health.ready s
  | .stats => Health.stats c

/-- The answer to a request: pages can be read only, with or without their body. -/
def respond (s : PoolStatus) (c : Counters) (method target : String) : Response :=
  match Page.ofPath (pathOf target) with
  | none => ⟨404, none, none, ""⟩
  | some page =>
    if method = "GET" then page.response s c
    else if method = "HEAD" then { page.response s c with body := "" }
    else ⟨405, none, some "GET,HEAD", ""⟩

end Health

end EventIngest
