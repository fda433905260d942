import NfsWire.Capture.Endpoint
import NfsWire.Time

/-!
# Flows and observations

A *flow* is a client and a server that talk to each other. A call goes from client to server
and its reply the other way, and both belong to the same flow.

An *observation* says where in the capture something was seen.
-/

namespace NfsWire

/-- A client and the server it calls. -/
structure Flow where
  client : Endpoint
  server : Endpoint
  deriving DecidableEq, Repr, Inhabited

namespace Flow

/-- The flow of a call between two endpoints. -/
def ofCall (src dst : Endpoint) : Flow := ⟨src, dst⟩

/-- The flow of a reply between two endpoints. -/
def ofReply (src dst : Endpoint) : Flow := ⟨dst, src⟩

end Flow

/-- A place in the capture. -/
structure Observation where
  seq : Nat
  /-- When it was, if the capture says so. -/
  time : Option Span
  deriving DecidableEq, Repr, Inhabited

end NfsWire
