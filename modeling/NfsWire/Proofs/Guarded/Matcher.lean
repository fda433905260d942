import NfsWire.Proofs.Capture.Repetitions
import NfsWire.Proofs.Guarded.Reader

/-!
# A guarded matcher

The number of waiting calls is counted up and down, apart from the store that it counts. It is
counted down when a call is taken out, and by then the call was looked up: the store is not empty,
and neither is the number, which is that of the calls in the store (`Matcher.WellFormed`).

The repetitions of a call have a word of 32 bits. Whether to count on from the greatest one is an
operation out of range is decided when the program is built (`Overflow`). Here both are treated at
once: what a guarded operation gives is the plain result, unless going round is a failure and a
count was told that has gone round (`Overflow.result`).
-/

namespace NfsWire.Guarded

variable {α β γ : Type}

/-! ## Words that are counted on -/

/-- What becomes of a word that is counted on from the greatest one. -/
inductive Overflow where
  /-- It goes round to zero, as in a build for release. -/
  | wraps
  /-- There is no result, as in a build that checks for overflow. -/
  | fails
  deriving DecidableEq, Repr

namespace Overflow

/-- One more than a count. -/
def next : Overflow → UInt32 → Option UInt32
  | .wraps, count => some (count + 1)
  | .fails, count => if count.toNat + 1 < UInt32.size then some (count + 1) else none

/-- A result on the way to which a word has gone round, or has not. -/
def result : Overflow → (wrapped : Bool) → α → Option α
  | .wraps, _, a => some a
  | .fails, wrapped, a => if wrapped then none else some a

theorem next_eq (o : Overflow) (count : UInt32) :
    o.next count = o.result (count + 1 == 0) (count + 1) := by
  cases o with
  | wraps => rfl
  | fails =>
    -- Zero comes of no count but the greatest.
    have hfull : (count + 1 == 0) = true ↔ ¬ count.toNat + 1 < UInt32.size := by
      constructor
      · intro h
        have := toNat_succ_of_wrapped h
        omega
      · intro h
        have hlt := count.toNat_lt
        refine beq_iff_eq.mpr (UInt32.toNat_inj.mp ?_)
        have hcount : count.toNat = 4294967295 := by
          change ¬ count.toNat + 1 < 4294967296 at h
          omega
        rw [UInt32.toNat_add, hcount]
        rfl
    show (if count.toNat + 1 < UInt32.size then some (count + 1) else none) =
      if count + 1 == 0 then none else some (count + 1)
    simp only [hfull, ite_not]

@[simp] theorem result_false (o : Overflow) (a : α) : o.result false a = some a := by
  cases o <;> rfl

/-- What goes round first or later goes round. -/
theorem result_bind (o : Overflow) {first later : Bool} {a : β} {c : γ} {f : β → Option γ}
    (h : f a = o.result later c) : (o.result first a).bind f = o.result (first || later) c := by
  cases o with
  | wraps => exact h
  | fails =>
    cases first with
    | true => rfl
    | false => exact h

/-- What is made of a result later is made of it whether or not a word has gone round. -/
theorem result_map (o : Overflow) (wrapped : Bool) (a : β) (f : β → γ) :
    ((o.result wrapped a).bind fun a => some (f a)) = o.result wrapped (f a) := by
  cases o with
  | wraps => rfl
  | fails => cases wrapped <;> rfl

end Overflow

/-! ## Operations -/

/-- Take a waiting call out. One call fewer waits. -/
def Matcher.take (m : Matcher α) (flow : Flow) (xid : UInt32) : Option (Matcher α) := do
  let pending ← minus m.pending 1
  return { m.setCalls flow ((m.calls flow).erase xid) with pending }

/-- Serve the tickets of a queue as of `now`; those that are left stay in the queue. -/
def Matcher.serve (m : Matcher α) (now : Observation) :
    List Ticket → Option (Matcher α × List (MatchEvent α))
  | [] => some ({ m with order := [] }, [])
  | t :: rest =>
    match m.get? t.flow t.xid with
    | none => Matcher.serve m now rest
    | some call =>
      if call.seen.seq = t.seq then
        if m.isOverdue call now then do
          let left ← Matcher.take m t.flow t.xid
          let (m', events) ← Matcher.serve left now rest
          return (m', .timeout t.flow call :: events)
        else some ({ m with order := t :: rest }, [])
      else Matcher.serve m now rest

/-- Give up the calls that are overdue as of `now`, the oldest first. -/
def Matcher.expire (m : Matcher α) (now : Observation) :
    Option (Matcher α × List (MatchEvent α)) :=
  Matcher.serve m now m.order

/-- A call is seen. -/
def Matcher.onCall (o : Overflow) (m : Matcher α) (flow : Flow) (xid : UInt32) (call : α)
    (seen : Observation) : Option (Matcher α × List (MatchEvent α)) := do
  let (m, events) ← Matcher.expire m seen
  match m.get? flow xid with
  | some waiting =>
    let count ← o.next waiting.retransmissions
    return (m.put flow { waiting with retransmissions := count },
      events ++ [.retransmission flow xid count seen])
  | none => return (m.enrol flow xid call seen, events)

/-- A reply is seen. -/
def Matcher.onReply (m : Matcher α) (flow : Flow) (xid : UInt32) (reply : Observation) :
    Option (Matcher α × List (MatchEvent α)) := do
  let (m, events) ← Matcher.expire m reply
  match m.get? flow xid with
  | some waiting => return (← Matcher.take m flow xid, events ++ [.matched flow waiting reply])
  | none => return (m, events ++ [.orphan flow xid reply])

section Equations

variable {m : Matcher α} {flow : Flow} {xid : UInt32}

/-- **Whoever takes out a waiting call counts down from more than zero.** -/
theorem Matcher.take_eq {call : Pending α} (h : m.WellFormed) (hget : m.get? flow xid = some call) :
    Matcher.take m flow xid = some (m.take flow xid) := by
  have hpos : 1 ≤ m.pending := by
    have hlength : m.pending = (m.take flow xid).length + 1 := h.length_take hget
    omega
  unfold Matcher.take
  rw [minus_of_le hpos]
  rfl

theorem Matcher.serve_eq (h : m.WellFormed) (now : Observation) (tickets : List Ticket) :
    Matcher.serve m now tickets = some (m.serve now tickets) := by
  induction tickets generalizing m with
  | nil => rfl
  | cons t rest ih =>
    rw [Matcher.serve, NfsWire.Matcher.serve]
    cases hget : m.get? t.flow t.xid with
    | none => exact ih h
    | some call =>
      dsimp only
      split
      · split
        · rw [Matcher.take_eq h hget]
          simp only [Option.bind_eq_bind, Option.bind_some]
          rw [ih (h.take hget)]
          rfl
        · rfl
      · exact ih h

theorem Matcher.expire_eq (h : m.WellFormed) (now : Observation) :
    Matcher.expire m now = some (m.expire now) :=
  Matcher.serve_eq h now m.order

/-- **A call that is seen again is the only thing that may find a full count.** -/
theorem Matcher.onCall_eq (o : Overflow) (h : m.WellFormed) (flow : Flow) (xid : UInt32) (call : α)
    (seen : Observation) :
    Matcher.onCall o m flow xid call seen =
      o.result ((m.onCall flow xid call seen).2.any MatchEvent.wrapped)
        (m.onCall flow xid call seen) := by
  unfold Matcher.onCall
  rw [Matcher.expire_eq h]
  simp only [Option.bind_eq_bind, Option.bind_some]
  cases hget : (m.expire seen).1.get? flow xid with
  | none =>
    rw [h.any_wrapped_onCall_new hget, NfsWire.Matcher.onCall_new hget, o.result_false]
    rfl
  | some waiting =>
    rw [h.any_wrapped_onCall_again hget, NfsWire.Matcher.onCall_again hget]
    dsimp only
    rw [o.next_eq]
    exact o.result_map (waiting.retransmissions + 1 == 0) (waiting.retransmissions + 1) _

theorem Matcher.onReply_eq (h : m.WellFormed) (flow : Flow) (xid : UInt32) (reply : Observation) :
    Matcher.onReply m flow xid reply = some (m.onReply flow xid reply) := by
  obtain ⟨gone, hgone⟩ := h.expire reply
  unfold Matcher.onReply
  rw [Matcher.expire_eq h]
  simp only [Option.bind_eq_bind, Option.bind_some]
  cases hget : (m.expire reply).1.get? flow xid with
  | none =>
    rw [NfsWire.Matcher.onReply_orphan hget]
    rfl
  | some waiting =>
    rw [NfsWire.Matcher.onReply_matched hget]
    simp only [Matcher.take_eq hgone.wellFormed hget, Option.bind_some]
    rfl

end Equations

end NfsWire.Guarded
