import EventIngest.Event.Basic
/-!
# Messages

A source hands out messages as deliveries: the handle by which a message is settled, and the event
that its bytes hold or the reason why they hold none.
-/
namespace EventIngest

/-- Where a message stands in the log and how often it has been handed out. -/
structure Handle where
  partition : Int
  offset : Int
  deliveryCount : Nat
  deriving DecidableEq, Repr

structure Malformed where
  raw : List UInt8
  reason : DecodeError

structure Delivery where
  handle : Handle
  content : Except Malformed Event

namespace Delivery

/-- A delivery of a message; one without a payload counts as empty. -/
def ofMessage (handle : Handle) (payload : Option (List UInt8)) : Delivery :=
  let raw := payload.getD []
  { handle
    content :=
      match Event.ofBytes raw with
      | .ok event => .ok event
      | .error reason => .error ⟨raw, reason⟩ }

def isDecoded (d : Delivery) : Bool :=
  match d.content with
  | .ok _ => true
  | .error _ => false

end Delivery

end EventIngest
