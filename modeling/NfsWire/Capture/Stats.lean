import NfsWire.Capture.Matcher
import NfsWire.Capture.Packet

/-!
# Statistics

Counters are bumped where things happen: a message when its header was read, an error when it
is met, a pairing when the matcher tells of it. Nothing here looks at the events that go out,
so that the two agree is a fact about the decoder and not about its counters.
-/

namespace NfsWire

/-- Counters of one capture. -/
structure Stats where
  packets : Nat := 0
  messages : Nat := 0
  calls : Nat := 0
  replies : Nat := 0
  /-- Errors by the kind of their fault, in the order of their first appearance. -/
  errors : List (String × Nat) := []
  matched : Nat := 0
  orphans : Nat := 0
  timeouts : Nat := 0
  retransmissions : Nat := 0
  unresolved : Nat := 0
  rdmaErrors : Nat := 0
  deriving DecidableEq, Repr, Inhabited

namespace Stats

/-- Count one more of a kind. -/
def bump (kind : String) : List (String × Nat) → List (String × Nat)
  | [] => [(kind, 1)]
  | (k, n) :: rest => if k = kind then (k, n + 1) :: rest else (k, n) :: bump kind rest

/-- Count an error. -/
def countError (s : Stats) (e : DecodeError) : Stats :=
  { s with errors := bump e.fault.kind s.errors }

/-- Count a call or a reply. -/
def countDirection (s : Stats) : Rpc.Direction → Stats
  | .call => { s with calls := s.calls + 1 }
  | .reply => { s with replies := s.replies + 1 }

/-- Count a message that goes one way or the other. -/
def countMessage (s : Stats) (direction : Rpc.Direction) : Stats :=
  { s with messages := s.messages + 1 }.countDirection direction

/-- Count what the matcher tells. -/
def countMatch {α : Type} (s : Stats) : MatchEvent α → Stats
  | .matched .. => { s with matched := s.matched + 1 }
  | .orphan .. => { s with orphans := s.orphans + 1 }
  | .retransmission .. => { s with retransmissions := s.retransmissions + 1 }
  | .timeout .. => { s with timeouts := s.timeouts + 1 }

/-- The number of errors of one kind. -/
def errorsOf (s : Stats) (kind : String) : Nat :=
  ((s.errors.find? (·.1 == kind)).map (·.2)).getD 0

/-- The number of errors of all kinds. -/
def errorCount (s : Stats) : Nat := @List.sum Nat _ Zero.ofOfNat0 (s.errors.map (·.2))

end Stats

end NfsWire
