import NfsWire.Capture.Flow

/-!
# Pairing calls with replies

The matcher holds the calls that wait for a reply, by flow and transaction id. A call seen
again while it waits is a retransmission; a reply takes its call out; a reply without a call
is an orphan; a call that waits too long times out.

**Aging is lazy.** Calls that can age are queued as they arrive, each as a *ticket* with the
sequence number of the call. Before anything else is done at an observation, tickets are
taken from the front of the queue for as long as they are stale or overdue. A ticket is stale
when its call is gone: matched, or replaced by a later call of the same transaction id, which
has another sequence number. Tickets are never looked for inside the queue.

Under aging by time a call without a capture time never gets a ticket, so that it does not
hold back those behind it.
-/

namespace NfsWire

/-- When a waiting call is given up. -/
inductive Aging where
  | disabled
  /-- After more than this many packets of the capture. -/
  | packets (max : Nat)
  /-- After more than this much time. -/
  | time (max : Span)
  deriving DecidableEq, Repr, Inhabited

/-- Calls wait for a hundred thousand packets unless told otherwise. -/
def Aging.standard : Aging := .packets 100000

structure MatcherSettings where
  aging : Aging := .standard
  /-- Report the calls that still wait at the end, instead of dropping them. -/
  flushOnFinish : Bool := true
  deriving DecidableEq, Repr, Inhabited

/-- A call that waits for its reply. -/
structure Pending (α : Type) where
  xid : UInt32
  call : α
  /-- Where the call was seen first. -/
  seen : Observation
  /-- How often it was seen again. The count has 32 bits and goes round. -/
  retransmissions : UInt32
  deriving DecidableEq, Repr

/-- What the matcher tells. -/
inductive MatchEvent (α : Type) where
  | matched (flow : Flow) (call : Pending α) (reply : Observation)
  | orphan (flow : Flow) (xid : UInt32) (reply : Observation)
  /-- `count` is the count of the call, this retransmission included. -/
  | retransmission (flow : Flow) (xid count : UInt32) (seen : Observation)
  | timeout (flow : Flow) (call : Pending α)
  deriving DecidableEq, Repr

/-- A place in the queue of a call that can age. -/
structure Ticket where
  seq : Nat
  flow : Flow
  xid : UInt32
  deriving DecidableEq, Repr, Inhabited

/-- The waiting calls of one flow, in no particular order. -/
abbrev Calls (α : Type) := List (Pending α)

/-- Waiting calls. -/
structure Matcher (α : Type) where
  settings : MatcherSettings
  /-- The calls of each flow that has any. -/
  flows : List (Flow × Calls α)
  /-- Tickets in order of arrival. -/
  order : List Ticket
  /-- The number of waiting calls. -/
  pending : Nat

namespace Calls

variable {α : Type}

def find? (calls : Calls α) (xid : UInt32) : Option (Pending α) :=
  List.find? (·.xid == xid) calls

def erase (calls : Calls α) (xid : UInt32) : Calls α :=
  List.filter (·.xid != xid) calls

end Calls

namespace Matcher

variable {α : Type}

/-! ## State -/

/-- A matcher without calls. -/
def new (settings : MatcherSettings) : Matcher α :=
  { settings, flows := [], order := [], pending := 0 }

/-- The number of waiting calls. -/
def length (m : Matcher α) : Nat := m.pending

def isEmpty (m : Matcher α) : Bool := m.pending == 0

/-- The waiting calls of a flow. -/
def calls (m : Matcher α) (flow : Flow) : Calls α :=
  ((m.flows.find? (·.1 == flow)).map (·.2)).getD []

/-- The waiting call of a flow and transaction id. -/
def get? (m : Matcher α) (flow : Flow) (xid : UInt32) : Option (Pending α) :=
  (m.calls flow).find? xid

/-- Replace the calls of a flow; a flow without calls is not kept. -/
def setCalls (m : Matcher α) (flow : Flow) (calls : Calls α) : Matcher α :=
  let others := m.flows.filter (·.1 != flow)
  { m with flows := if calls.isEmpty then others else others ++ [(flow, calls)] }

/-- Let a call wait, in place of the one of its transaction id. -/
def put (m : Matcher α) (flow : Flow) (call : Pending α) : Matcher α :=
  m.setCalls flow ((m.calls flow).erase call.xid ++ [call])

/-- Take a waiting call out. -/
def take (m : Matcher α) (flow : Flow) (xid : UInt32) : Matcher α :=
  let m' := m.setCalls flow ((m.calls flow).erase xid)
  { m' with pending := m.pending - 1 }

/-! ## Aging -/

/-- Whether a call first seen at `seen` can ever time out. -/
def canAge (m : Matcher α) (seen : Observation) : Bool :=
  match m.settings.aging with
  | .disabled => false
  | .packets _ => true
  | .time _ => seen.time.isSome

/-- Whether a call waits too long as of `now`. -/
def isOverdue (m : Matcher α) (call : Pending α) (now : Observation) : Bool :=
  match m.settings.aging with
  | .disabled => false
  | .packets max => decide (max < now.seq - call.seen.seq)
  | .time max =>
    match call.seen.time, now.time with
    | some t, some t' => decide (max.nanoseconds < t'.nanoseconds - t.nanoseconds)
    | _, _ => false

/-- Serve the tickets of a queue as of `now`; those that are left stay in the queue. -/
def serve (m : Matcher α) (now : Observation) : List Ticket → Matcher α × List (MatchEvent α)
  | [] => ({ m with order := [] }, [])
  | t :: rest =>
    match m.get? t.flow t.xid with
    | none => m.serve now rest
    | some call =>
      if call.seen.seq = t.seq then
        if m.isOverdue call now then
          let (m', events) := (m.take t.flow t.xid).serve now rest
          (m', .timeout t.flow call :: events)
        else ({ m with order := t :: rest }, [])
      else m.serve now rest

/-- Give up the calls that are overdue as of `now`, the oldest first. -/
def expire (m : Matcher α) (now : Observation) : Matcher α × List (MatchEvent α) :=
  m.serve now m.order

/-! ## Observations -/

/-- Let a call wait that does not wait yet. -/
def enrol (m : Matcher α) (flow : Flow) (xid : UInt32) (call : α) (seen : Observation) :
    Matcher α :=
  let m' := m.put flow { xid, call, seen, retransmissions := 0 }
  { m' with
    pending := m.pending + 1
    order := if m.canAge seen then m.order ++ [⟨seen.seq, flow, xid⟩] else m.order }

/-- A call is seen. -/
def onCall (m : Matcher α) (flow : Flow) (xid : UInt32) (call : α) (seen : Observation) :
    Matcher α × List (MatchEvent α) :=
  let (m, events) := m.expire seen
  match m.get? flow xid with
  | some waiting =>
    let count := waiting.retransmissions + 1
    (m.put flow { waiting with retransmissions := count },
      events ++ [.retransmission flow xid count seen])
  | none => (m.enrol flow xid call seen, events)

/-- A reply is seen. -/
def onReply (m : Matcher α) (flow : Flow) (xid : UInt32) (reply : Observation) :
    Matcher α × List (MatchEvent α) :=
  let (m, events) := m.expire reply
  match m.get? flow xid with
  | some waiting => (m.take flow xid, events ++ [.matched flow waiting reply])
  | none => (m, events ++ [.orphan flow xid reply])

/-! ## The end of the capture -/

/-- All waiting calls with their flows. -/
def waiting (m : Matcher α) : List (Flow × Pending α) :=
  m.flows.flatMap fun (flow, calls) => calls.map (flow, ·)

/-- Settle all waiting calls, in the order of their sequence numbers. -/
def finish (m : Matcher α) : Matcher α × List (MatchEvent α) :=
  (new m.settings,
    if m.settings.flushOnFinish then
      (m.waiting.mergeSort fun a b => a.2.seen.seq ≤ b.2.seen.seq).map
        fun (flow, call) => .timeout flow call
    else [])

end Matcher

end NfsWire
