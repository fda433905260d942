import NfsWire.Proofs.Capture.Lives
import NfsWire.Proofs.Capture.Session

/-!
# Counts that go round

The repetitions of a call are counted in 32 bits, and of a call that was seen again 2 ^ 32 times the
count is zero once more. One can see this in what is told: a repetition is told with its number, and
only a count that has gone round makes that number zero (`Event.wrapped`).

For this a single call has to be repeated 2 ^ 32 times. What is needed to show it is that no waiting
call counts more repetitions than there were (`Matcher.RepeatedAtMost`).
-/

namespace NfsWire

/-! ## What is told of it -/

/-- Whether a repetition is told whose count has gone round. -/
def MatchEvent.wrapped {α : Type} : MatchEvent α → Bool
  | .retransmission _ _ count _ => count == 0
  | _ => false

/-- Whether a repetition is told whose count has gone round. -/
def Event.wrapped : Event → Bool
  | .retransmission _ _ count _ => count == 0
  | _ => false

theorem any_wrapped_timeoutOf {α : Type} (gone : List (Flow × Pending α)) :
    (gone.map Matcher.timeoutOf).any MatchEvent.wrapped = false := by
  induction gone with
  | nil => rfl
  | cons c gone ih => exact ih

namespace Matcher.WellFormed

variable {α : Type} {m : Matcher α} {flow : Flow} {xid : UInt32} {waiting : Pending α}
  {seen : Observation}

theorem any_wrapped_expire (h : m.WellFormed) (now : Observation) :
    (m.expire now).2.any MatchEvent.wrapped = false := by
  obtain ⟨gone, hg⟩ := h.expire now
  rw [hg.events]
  exact any_wrapped_timeoutOf gone

theorem any_wrapped_onCall_new (h : m.WellFormed)
    (hget : (m.expire seen).1.get? flow xid = none) (call : α) :
    (m.onCall flow xid call seen).2.any MatchEvent.wrapped = false := by
  rw [onCall_new hget]
  exact h.any_wrapped_expire seen

/-- A call that is seen again is the only thing whose count can go round. -/
theorem any_wrapped_onCall_again (h : m.WellFormed)
    (hget : (m.expire seen).1.get? flow xid = some waiting) (call : α) :
    (m.onCall flow xid call seen).2.any MatchEvent.wrapped =
      (waiting.retransmissions + 1 == 0) := by
  rw [onCall_again hget, List.any_append, h.any_wrapped_expire]
  exact Bool.or_false _

theorem any_wrapped_onReply (h : m.WellFormed) (flow : Flow) (xid : UInt32)
    (reply : Observation) : (m.onReply flow xid reply).2.any MatchEvent.wrapped = false := by
  cases hget : (m.expire reply).1.get? flow xid with
  | none =>
    rw [onReply_orphan hget, List.any_append, h.any_wrapped_expire]
    rfl
  | some waiting =>
    rw [onReply_matched hget, List.any_append, h.any_wrapped_expire]
    rfl

end Matcher.WellFormed

namespace Books

variable (b : Books)

/-- The world is told of such a count when the matcher tells of it. -/
theorem any_wrapped_settle (reply : Option Message) (events : List (MatchEvent Message)) :
    (b.settle reply events).2.any Event.wrapped = events.any MatchEvent.wrapped := by
  induction events generalizing b reply with
  | nil => rfl
  | cons e rest ih =>
    have hone : (Event.ofMatch reply e).1.any Event.wrapped = e.wrapped := by
      cases e with
      | matched flow call seen => cases reply <;> rfl
      | orphan flow xid seen => cases reply <;> rfl
      | retransmission flow xid count seen => exact Bool.or_false _
      | timeout flow call => rfl
    rw [settle_cons, List.any_cons, List.any_append, hone]
    exact congrArg (e.wrapped || ·) (ih _ _)

theorem any_wrapped_accept (p : Packet) (result : Except DecodeError (Option Rpc.Body)) :
    (b.accept p result).2.1.any Event.wrapped = false := by
  cases result with
  | ok body => rfl
  | error e => rfl

theorem any_wrapped_lack (p : Packet) (xid : UInt32) (refs : List ChunkRef) :
    (b.lack p xid refs).2.any Event.wrapped = false := by
  induction refs generalizing b with
  | nil => rfl
  | cons ref rest ih => exact ih _

theorem any_wrapped_failDangling (maxRecord : Nat) (streams : Streams) :
    (b.failDangling maxRecord streams).2.any Event.wrapped = false := by
  induction streams generalizing b with
  | nil => rfl
  | cons stream rest ih =>
    unfold failDangling
    cases Rpc.readRecord stream.2 maxRecord with
    | ok record => exact ih b
    | error e => exact ih _

theorem any_wrapped_close : b.close.2.any Event.wrapped = false := by
  show (settle _ none b.matcher.finish.2).2.any Event.wrapped = false
  rw [any_wrapped_settle]
  unfold Matcher.finish
  split
  · exact any_wrapped_timeoutOf _
  · rfl

variable {b}

theorem any_wrapped_expire (h : b.matcher.WellFormed) (now : Observation) :
    (b.expire now).2.any Event.wrapped = false := by
  show (settle _ none (b.matcher.expire now).2).2.any Event.wrapped = false
  rw [any_wrapped_settle]
  exact h.any_wrapped_expire now

theorem any_wrapped_track_call {msg : Message} (hdirection : msg.direction = .call) :
    (b.track msg).2.any Event.wrapped =
      (b.matcher.onCall msg.flow msg.xid msg msg.seen).2.any MatchEvent.wrapped := by
  simp only [track, hdirection]
  exact any_wrapped_settle ..

theorem any_wrapped_track_reply (h : b.matcher.WellFormed) {msg : Message}
    (hdirection : msg.direction = .reply) : (b.track msg).2.any Event.wrapped = false := by
  simp only [track, hdirection]
  rw [any_wrapped_settle]
  exact h.any_wrapped_onReply ..

theorem any_wrapped_messageBody (h : b.matcher.WellFormed) (s : DecoderSettings) (p : Packet)
    (header : Rpc.Header) (stream : Bytes) (chunks : Option ChunkMap) :
    (messageBody s b p header stream chunks).2.1.any Event.wrapped = false := by
  unfold messageBody
  cases header.content with
  | call call => rfl
  | reply reply => exact any_wrapped_expire h p.seen

end Books

/-- Of all that is told of a message, only its pairing can tell of such a count. -/
theorem any_wrapped_handleMessage {s : DecoderSettings} {b : Books} {stream : Bytes}
    {rdma : Option Rdma.Header} {header : Rpc.Header} (h : b.matcher.WellFormed)
    (hopen : openMessage s stream rdma = .ok header) (p : Packet) (chunks : Option ChunkMap) :
    (handleMessage s b p stream chunks rdma).2.any Event.wrapped =
      let read := messageBody s (b.countMessage header.direction) p header stream chunks
      let taken := read.1.accept p read.2.2
      let gaps := taken.1.lack p header.xid (missingOf taken.2.2)
      (gaps.1.track (Message.ofHeader p header rdma taken.2.2)).2.any Event.wrapped := by
  have hcounted : (b.countMessage header.direction).matcher.WellFormed := h
  rw [handleMessage_ok hopen]
  simp only [List.any_append, Books.any_wrapped_messageBody hcounted, Books.any_wrapped_accept,
    Books.any_wrapped_lack]
  rfl

/-! ## How far a call is counted -/

/-- No waiting call counts more than `n` repetitions. -/
def Matcher.RepeatedAtMost {α : Type} (m : Matcher α) (n : Nat) : Prop :=
  ∀ c ∈ m.waiting, c.2.retransmissions.toNat ≤ n

/-- One more than a count, which may have gone round. -/
theorem toNat_succ_le (count : UInt32) : (count + 1).toNat ≤ count.toNat + 1 := by
  rw [UInt32.toNat_add]
  exact Nat.mod_le ..

/-- A count goes round at the greatest number. -/
theorem toNat_succ_of_wrapped {count : UInt32} (h : (count + 1 == 0) = true) :
    count.toNat + 1 = UInt32.size := by
  have hlt : count.toNat < 4294967296 := count.toNat_lt
  have hzero := congrArg UInt32.toNat (beq_iff_eq.mp h)
  rw [UInt32.toNat_add] at hzero
  change (count.toNat + 1) % 4294967296 = 0 at hzero
  show count.toNat + 1 = 4294967296
  omega

namespace Matcher.RepeatedAtMost

variable {α : Type} {m : Matcher α} {n : Nat} {flow : Flow} {xid : UInt32} {waiting : Pending α}

theorem new (settings : MatcherSettings) (n : Nat) : (new settings : Matcher α).RepeatedAtMost n :=
  nofun

theorem givesUp (h : m.RepeatedAtMost n) {now : Observation}
    {r : Matcher α × List (MatchEvent α)} {gone : List (Flow × Pending α)}
    (hg : m.GivesUp now r gone) : r.1.RepeatedAtMost n :=
  fun c hc => h c (hg.waiting.mem_iff.mpr (List.mem_append_right _ hc))

theorem take (h : m.RepeatedAtMost n) (hwf : m.WellFormed)
    (hget : m.get? flow xid = some waiting) : (m.take flow xid).RepeatedAtMost n :=
  fun c hc => h c ((hwf.waiting_take hget).mem_iff.mpr (List.mem_cons_of_mem _ hc))

theorem enrol (h : m.RepeatedAtMost n) (hwf : m.WellFormed) (hget : m.get? flow xid = none)
    (call : α) (seen : Observation) : (m.enrol flow xid call seen).RepeatedAtMost n := by
  intro c hc
  rcases List.mem_cons.mp ((hwf.waiting_enrol hget call seen).mem_iff.mp hc) with rfl | hc
  · exact Nat.zero_le n
  · exact h c hc

/-- Whoever counts one more counts no more than one more than before. -/
theorem put (h : m.RepeatedAtMost n) (hwf : m.WellFormed)
    (hget : m.get? flow xid = some waiting) :
    (m.put flow { waiting with retransmissions := waiting.retransmissions + 1 }).RepeatedAtMost
      (n + 1) := by
  have hxid : waiting.xid = xid := Calls.xid_of_find? hget
  have hwaiting := h _ (hwf.get?_eq_some_iff.mp hget).1
  intro c hc
  rcases List.mem_cons.mp ((m.waiting_put flow _).mem_iff.mp hc) with rfl | hc
  · exact Nat.le_trans (toNat_succ_le _) (Nat.succ_le_succ hwaiting)
  · exact Nat.le_succ_of_le (h.take hwf (hxid ▸ hget) c hc)

end Matcher.RepeatedAtMost

end NfsWire
