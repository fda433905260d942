import NfsWire.Capture.Matcher

/-!
# Matching in shards

Flows can be spread over several matchers, the *shards*, which do not know of each other. A
flow always goes to the same shard, so its calls and replies meet. A shard looks for overdue
calls only when one of its own flows is observed.
-/

namespace NfsWire

/-- Matchers side by side, and the choice of one for each flow. -/
structure Shards (α : Type) where
  /-- The number by which a flow chooses its shard. -/
  digest : Flow → UInt64
  shards : List (Matcher α)

namespace Shards

variable {α : Type}

/-- As many empty shards as asked for, but at least one. -/
def new (count : Nat) (settings : MatcherSettings) (digest : Flow → UInt64) : Shards α :=
  { digest, shards := List.replicate (max count 1) (Matcher.new settings) }

/-- The index of a flow's shard. -/
def indexOf (s : Shards α) (flow : Flow) : Nat :=
  (s.digest flow).toNat % s.shards.length

/-- Let a flow's shard make a step. -/
def step (s : Shards α) (flow : Flow) (f : Matcher α → Matcher α × List (MatchEvent α)) :
    Shards α × List (MatchEvent α) :=
  match s.shards[s.indexOf flow]? with
  | some m =>
    let (m', events) := f m
    ({ s with shards := s.shards.set (s.indexOf flow) m' }, events)
  | none => (s, [])

def onCall (s : Shards α) (flow : Flow) (xid : UInt32) (call : α) (seen : Observation) :
    Shards α × List (MatchEvent α) :=
  s.step flow (·.onCall flow xid call seen)

def onReply (s : Shards α) (flow : Flow) (xid : UInt32) (reply : Observation) :
    Shards α × List (MatchEvent α) :=
  s.step flow (·.onReply flow xid reply)

/-- The number of waiting calls in all shards. -/
def length (s : Shards α) : Nat :=
  @List.sum Nat _ Zero.ofOfNat0 (s.shards.map (·.length))

def isEmpty (s : Shards α) : Bool := s.length == 0

end Shards

/-- The sequence number by which the events of a finish are ordered: that of the call that
times out. -/
def MatchEvent.finishSeq {α : Type} : MatchEvent α → Nat
  | .timeout _ call => call.seen.seq
  | _ => 0

/-- Settle all waiting calls of all shards, in the order of their sequence numbers. -/
def Shards.finish {α : Type} (s : Shards α) : Shards α × List (MatchEvent α) :=
  let finished := s.shards.map (·.finish)
  ({ s with shards := finished.map (·.1) },
    (finished.flatMap (·.2)).mergeSort fun a b => a.finishSeq ≤ b.finishSeq)

end NfsWire
