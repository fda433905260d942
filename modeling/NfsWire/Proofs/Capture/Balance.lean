import NfsWire.Proofs.Capture.Records
import NfsWire.Proofs.Capture.Repetitions

/-!
# The counters of a decoder add up

Counters are bumped in many places, on the way of a message from its packet to its pairing. Three
things hold of them whenever a packet has been handled.

* **What is counted is what is told** (`Books.Counts`): each counter of a kind of event has grown
  by the number of events of that kind. A verdict of the matcher is told only if the reply is still
  there to be told of, so this needs that the matcher gives one verdict at most to each reply.
* **What comes in goes out** (`Books.Balanced`): every reply got a verdict, and every call is
  matched, timed out, counted as a retransmission, dropped, or waits. In the middle of a message one
  side is ahead: the message is counted as a call or a reply well before it is paired.
* **A count that has gone round took its time.** No waiting call was repeated more often than
  repetitions are counted, so there were 2 ^ 32 of them when the count of one is told as zero.
-/

namespace NfsWire

/-! ## Kinds of events -/

/-- What an event tells of; errors by the kind of their fault. -/
inductive Event.Kind where
  | message
  | matched
  | orphanReply
  | retransmission
  | timeout
  | unresolved
  | rdmaError
  | error (fault : String)
  deriving DecidableEq, Repr

def Event.kind : Event → Event.Kind
  | .message _ => .message
  | .matched .. => .matched
  | .orphanReply _ => .orphanReply
  | .retransmission .. => .retransmission
  | .timeout .. => .timeout
  | .unresolved .. => .unresolved
  | .rdmaError .. => .rdmaError
  | .error _ _ _ _ e => .error e.fault.kind

/-- How many of some events are of a kind. -/
def tally (told : List Event) (k : Event.Kind) : Nat := (told.map Event.kind).count k

/-- The counter of a kind of event. -/
def Stats.counter (s : Stats) : Event.Kind → Nat
  | .message => s.messages
  | .matched => s.matched
  | .orphanReply => s.orphans
  | .retransmission => s.retransmissions
  | .timeout => s.timeouts
  | .unresolved => s.unresolved
  | .rdmaError => s.rdmaErrors
  | .error fault => s.errorsOf fault

@[simp] theorem tally_append (told more : List Event) (k : Event.Kind) :
    tally (told ++ more) k = tally told k + tally more k := by
  rw [tally, List.map_append, List.count_append]
  rfl

theorem tally_cons (e : Event) (told : List Event) (k : Event.Kind) :
    tally (e :: told) k = tally told k + if e.kind = k then 1 else 0 := by
  rw [tally, List.map_cons, List.count_cons]
  simp [tally]

theorem tally_singleton (e : Event) (k : Event.Kind) :
    tally [e] k = if e.kind = k then 1 else 0 :=
  (tally_cons e [] k).trans (Nat.zero_add _)

/-- An error is counted under its kind, and under no other. -/
theorem Stats.counter_countError (s : Stats) (e : DecodeError) (k : Event.Kind) :
    (s.countError e).counter k = s.counter k + if .error e.fault.kind = k then 1 else 0 := by
  have hbump (kind : String) (errors : List (String × Nat)) :
      (((bump e.fault.kind errors).find? (·.1 == kind)).map (·.2)).getD 0 =
        ((errors.find? (·.1 == kind)).map (·.2)).getD 0 +
          if e.fault.kind = kind then 1 else 0 := by
    induction errors with
    | nil => by_cases h : e.fault.kind = kind <;> simp [bump, h]
    | cons entry rest ih =>
      obtain ⟨k', n⟩ := entry
      by_cases hk' : k' = e.fault.kind
      · subst hk'
        by_cases h : e.fault.kind = kind <;> simp [bump, h]
      · by_cases h : k' = kind
        · subst h
          simp [bump, hk', Ne.symm hk']
        · simpa [bump, hk', h] using ih
  cases k with
  | error fault => simpa [counter, errorsOf, countError] using hbump fault s.errors
  | _ => simp [counter, countError]

/-- The kind of event by which a pairing is told. -/
def MatchEvent.kind {α : Type} : MatchEvent α → Event.Kind
  | .matched .. => .matched
  | .orphan .. => .orphanReply
  | .retransmission .. => .retransmission
  | .timeout .. => .timeout

theorem Stats.counter_countMatch {α : Type} (s : Stats) (e : MatchEvent α) (k : Event.Kind) :
    (s.countMatch e).counter k = s.counter k + if e.kind = k then 1 else 0 := by
  cases e <;> cases k <;> simp [countMatch, counter, errorsOf, MatchEvent.kind]

/-! ## What is counted is what is told -/

namespace Books

/-- From the first books to the second each counter of a kind of event grows by what is told. -/
def Counts (b : Books) (told : List Event) (b' : Books) : Prop :=
  ∀ k, b'.stats.counter k = b.stats.counter k + tally told k

variable {b b' b'' : Books} {told more : List Event}

theorem Counts.refl (b : Books) : b.Counts [] b := fun _ => rfl

theorem Counts.trans (h : b.Counts told b') (h' : b'.Counts more b'') :
    b.Counts (told ++ more) b'' := by
  intro k
  rw [h' k, h k, tally_append, Nat.add_assoc]

/-- A message is counted when it is about to be told. -/
theorem counts_countMessage (b : Books) (direction : Rpc.Direction) (msg : Message) :
    b.Counts [.message msg] (b.countMessage direction) := by
  intro k
  rw [tally_singleton]
  cases direction <;> cases k <;>
    simp [Books.countMessage, Stats.countMessage, Stats.countDirection, Stats.counter,
      Stats.errorsOf, Event.kind]

theorem counts_countPeerError (b : Books) (p : Packet) (header : Rdma.Header) :
    b.Counts [.rdmaError p.seen.seq p.src p.dst header] b.countPeerError := by
  intro k
  rw [tally_singleton]
  cases k <;> simp [Books.countPeerError, Stats.countDirection, Stats.counter, Stats.errorsOf,
    Event.kind]

theorem counts_fail (b : Books) (p : Packet) (e : DecodeError) :
    b.Counts (b.fail p e).2 (b.fail p e).1 := by
  intro k
  show (b.stats.countError e).counter k = _ + tally [p.error e] k
  rw [b.stats.counter_countError, tally_singleton]
  rfl

theorem counts_accept (b : Books) (p : Packet)
    (result : Except DecodeError (Option Rpc.Body)) :
    b.Counts (b.accept p result).2.1 (b.accept p result).1 := by
  cases result with
  | ok body => exact .refl b
  | error e => exact b.counts_fail p e

theorem counts_lack (b : Books) (p : Packet) (xid : UInt32) (refs : List ChunkRef) :
    b.Counts (b.lack p xid refs).2 (b.lack p xid refs).1 := by
  induction refs generalizing b with
  | nil => exact .refl b
  | cons ref rest ih =>
    let b₁ : Books := { b with stats.unresolved := b.stats.unresolved + 1 }
    have hone : b.Counts [.unresolved p.seen.seq xid ref] b₁ := by
      intro k
      rw [tally_singleton]
      cases k <;> simp [b₁, Event.kind, Stats.counter, Stats.errorsOf]
    exact hone.trans (ih b₁)

theorem counts_failDangling (b : Books) (maxRecord : Nat) (streams : Streams) :
    b.Counts (b.failDangling maxRecord streams).2 (b.failDangling maxRecord streams).1 := by
  induction streams generalizing b with
  | nil => exact .refl b
  | cons stream rest ih =>
    obtain ⟨⟨src, dst⟩, data⟩ := stream
    unfold failDangling
    cases Rpc.readRecord data maxRecord with
    | ok record => exact ih b
    | error e =>
      have hone : b.Counts [.error 0 src dst .tcp e] { b with stats := b.stats.countError e } := by
        intro k
        rw [tally_singleton]
        exact b.stats.counter_countError e k
      exact hone.trans (ih _)

/-! ### Pairing -/

/-- A verdict is told if the reply is there, and then it takes the reply. -/
theorem tally_ofMatch {reply : Option Message} {e : MatchEvent Message}
    (h : e.isVerdict = true → reply.isSome = true) (k : Event.Kind) :
    tally (Event.ofMatch reply e).1 k = if e.kind = k then 1 else 0 := by
  cases e with
  | matched flow call seen =>
    obtain ⟨r, rfl⟩ := Option.isSome_iff_exists.mp (h rfl)
    exact tally_singleton ..
  | orphan flow xid seen =>
    obtain ⟨r, rfl⟩ := Option.isSome_iff_exists.mp (h rfl)
    exact tally_singleton ..
  | retransmission flow xid count seen => exact tally_singleton ..
  | timeout flow call => exact tally_singleton ..

theorem snd_ofMatch (reply : Option Message) (e : MatchEvent Message) :
    (Event.ofMatch reply e).2 = if e.isVerdict then none else reply := by
  cases e <;> rfl

theorem counts_ofMatch (b : Books) {reply : Option Message} {e : MatchEvent Message}
    (h : e.isVerdict = true → reply.isSome = true) :
    b.Counts (Event.ofMatch reply e).1 { b with stats := b.stats.countMatch e } := by
  intro k
  rw [tally_ofMatch h]
  exact b.stats.counter_countMatch e k

/-- If there are no more verdicts than replies, all that the matcher tells is told. -/
theorem counts_settle (b : Books) {reply : Option Message} {events : List (MatchEvent Message)}
    (h : (events.filter MatchEvent.isVerdict).length ≤ reply.toList.length) :
    b.Counts (b.settle reply events).2 (b.settle reply events).1 := by
  induction events generalizing b reply with
  | nil => exact .refl b
  | cons e rest ih =>
    rw [settle_cons, snd_ofMatch]
    cases hverdict : e.isVerdict with
    | true =>
      rw [List.filter_cons_of_pos hverdict, List.length_cons] at h
      cases reply with
      | none => simp at h
      | some r =>
        -- There was one reply, so no other verdict follows.
        have hrest : (rest.filter MatchEvent.isVerdict).length ≤
            (none : Option Message).toList.length := by
          simpa using h
        exact (b.counts_ofMatch fun _ => rfl).trans (ih _ hrest)
    | false =>
      rw [List.filter_cons_of_neg (by simp [hverdict])] at h
      exact (b.counts_ofMatch (by simp [hverdict])).trans (ih _ h)

/-- What an action of the matcher tells is counted, if the reply it answers is there. -/
theorem counts_act (h : b.matcher.WellFormed) (a : Action Message) {reply : Option Message}
    (hreply : (a.verdicts b.matcher).length ≤ reply.toList.length) :
    let after : Books := { b with matcher := (b.matcher.act a).1 }
    b.Counts (after.settle reply (b.matcher.act a).2).2
      (after.settle reply (b.matcher.act a).2).1 := by
  intro after
  rw [← h.verdicts_act a] at hreply
  exact after.counts_settle hreply

theorem counts_expire (h : b.matcher.WellFormed) (now : Observation) :
    b.Counts (b.expire now).2 (b.expire now).1 :=
  counts_act h (.step (.expire now)) (Nat.le_refl 0)

theorem counts_track (h : b.matcher.WellFormed) (msg : Message) :
    b.Counts (b.track msg).2 (b.track msg).1 := by
  unfold track
  cases msg.direction with
  | call => exact counts_act h (.step (.call msg.flow msg.xid msg msg.seen)) (Nat.le_refl 0)
  | reply => exact counts_act h (.step (.reply msg.flow msg.xid msg.seen)) (Nat.le_refl 1)

theorem counts_close (h : b.matcher.WellFormed) : b.Counts b.close.2 b.close.1 :=
  counts_act h .finish (Nat.le_refl 0)

end Books

/-! ## What comes in goes out -/

/-- How many messages that go one way were counted and not yet handed to the matcher. -/
def ahead (unpaired : Option Rpc.Direction) (direction : Rpc.Direction) : Nat :=
  if unpaired = some direction then 1 else 0

/-- Every reply has a verdict, and every call has left, is counted again, was dropped, or waits,
except for the message that is `unpaired` so far. The repetitions of those that wait are counted. -/
structure Books.Balanced (b : Books) (settings : MatcherSettings) (dropped : Nat)
    (unpaired : Option Rpc.Direction) : Prop where
  wellFormed : b.matcher.WellFormed
  settings : b.matcher.settings = settings
  replies : b.stats.replies = b.stats.matched + b.stats.orphans + ahead unpaired .reply
  calls : b.stats.calls = b.stats.matched + b.stats.timeouts + b.stats.retransmissions +
    b.matcher.length + dropped + ahead unpaired .call
  directions : b.stats.calls + b.stats.replies = b.stats.messages + b.stats.rdmaErrors
  repeated : b.matcher.RepeatedAtMost b.stats.retransmissions

theorem Matcher.GivesUp.length_eq {α : Type} {m : Matcher α} {now : Observation}
    {r : Matcher α × List (MatchEvent α)} {gone : List (Flow × Pending α)}
    (hg : m.GivesUp now r gone) (h : m.WellFormed) :
    m.length = gone.length + r.1.length := by
  have hm : m.length = m.waiting.length := h.pending
  have hr : r.1.length = r.1.waiting.length := hg.wellFormed.pending
  rw [hm, hr, ← List.length_append]
  exact hg.waiting.length_eq

theorem foldl_countMatch_timeoutOf {α : Type} (s : Stats) (gone : List (Flow × Pending α)) :
    (gone.map Matcher.timeoutOf).foldl Stats.countMatch s =
      { s with timeouts := s.timeouts + gone.length } := by
  induction gone generalizing s with
  | nil => rfl
  | cons c gone ih =>
    refine (ih _).trans ?_
    simp only [Stats.countMatch, Matcher.timeoutOf, List.length_cons]
    congr 1
    omega

namespace Books

variable {b : Books} {settings : MatcherSettings} {dropped : Nat}
  {unpaired : Option Rpc.Direction}

theorem Balanced.new (settings : MatcherSettings) :
    Balanced { matcher := .new settings, stats := {} } settings 0 none :=
  ⟨.new settings, rfl, rfl, rfl, rfl, .new settings 0⟩

/-- A message is counted. -/
theorem Balanced.countMessage (h : b.Balanced settings dropped none) (direction : Rpc.Direction) :
    (b.countMessage direction).Balanced settings dropped (some direction) := by
  obtain ⟨hwf, hsettings, hreplies, hcalls, hdirections, hrepeated⟩ := h
  cases direction with
  | call =>
    refine ⟨hwf, hsettings, hreplies, ?_, ?_, hrepeated⟩
    · exact congrArg (· + 1) hcalls
    · simp only [Books.countMessage, Stats.countMessage, Stats.countDirection]
      omega
  | reply =>
    refine ⟨hwf, hsettings, ?_, hcalls, ?_, hrepeated⟩
    · exact congrArg (· + 1) hreplies
    · simp only [Books.countMessage, Stats.countMessage, Stats.countDirection]
      omega

/-- An error of a peer is a reply, and no message. -/
theorem Balanced.countPeerError (h : b.Balanced settings dropped none) :
    b.countPeerError.Balanced settings dropped (some .reply) := by
  obtain ⟨hwf, hsettings, hreplies, hcalls, hdirections, hrepeated⟩ := h
  refine ⟨hwf, hsettings, congrArg (· + 1) hreplies, hcalls, ?_, hrepeated⟩
  simp only [Books.countPeerError, Stats.countDirection]
  omega

/-! ### Pairing -/

/-- A call is handed to what is left after giving up. -/
theorem track_call_fst {msg : Message} (h : msg.direction = .call)
    {m : Matcher Message} {told : List (MatchEvent Message)}
    (hcall : b.matcher.onCall msg.flow msg.xid msg msg.seen =
      (m, (b.matcher.expire msg.seen).2 ++ told)) :
    (b.track msg).1 = ⟨m, told.foldl Stats.countMatch (b.expire msg.seen).1.stats⟩ := by
  simp only [track, h, hcall]
  rw [settle_fst, expire_fst, List.foldl_append]

/-- A reply is handed to what is left after giving up. -/
theorem track_reply_fst {msg : Message} (h : msg.direction = .reply)
    {m : Matcher Message} {told : List (MatchEvent Message)}
    (hreply : b.matcher.onReply msg.flow msg.xid msg.seen =
      (m, (b.matcher.expire msg.seen).2 ++ told)) :
    (b.track msg).1 = ⟨m, told.foldl Stats.countMatch (b.expire msg.seen).1.stats⟩ := by
  simp only [track, h, hreply]
  rw [settle_fst, expire_fst, List.foldl_append]

/-- Calls that are given up time out. -/
theorem Balanced.expire (h : b.Balanced settings dropped unpaired) (now : Observation) :
    (b.expire now).1.Balanced settings dropped unpaired := by
  obtain ⟨gone, hg⟩ := h.wellFormed.expire now
  have hlength := hg.length_eq h.wellFormed
  have hcalls := h.calls
  rw [expire_fst, hg.events, foldl_countMatch_timeoutOf]
  refine ⟨hg.wellFormed, hg.settings.trans h.settings, h.replies, ?_, h.directions,
    h.repeated.givesUp hg⟩
  show b.stats.calls = b.stats.matched + (b.stats.timeouts + gone.length) +
    b.stats.retransmissions + (b.matcher.expire now).1.length + dropped + ahead unpaired .call
  omega

/-- **A message is paired.** -/
theorem Balanced.track {msg : Message} (h : b.Balanced settings dropped (some msg.direction)) :
    (b.track msg).1.Balanced settings dropped none := by
  obtain ⟨hwf, hsettings, hreplies, hcalls, hdirections, hrepeated⟩ := h.expire msg.seen
  have hmatcher : (b.expire msg.seen).1.matcher = (b.matcher.expire msg.seen).1 := by
    rw [expire_fst]
  rw [hmatcher] at hwf hsettings hcalls hrepeated
  cases hdirection : msg.direction with
  | call =>
    rw [hdirection] at hreplies hcalls
    simp only [ahead, reduceCtorEq, Option.some.injEq, if_true, if_false] at hreplies hcalls
    cases hget : (b.matcher.expire msg.seen).1.get? msg.flow msg.xid with
    | none =>
      -- The call that was ahead waits now.
      have hnew := Matcher.onCall_new hget msg
      rw [← List.append_nil (b.matcher.expire msg.seen).2] at hnew
      rw [track_call_fst hdirection hnew]
      refine ⟨hwf.enrol hget msg msg.seen, hsettings, hreplies, hcalls.trans ?_, hdirections,
        hrepeated.enrol hwf hget msg msg.seen⟩
      exact Nat.add_right_comm ..
    | some waiting =>
      -- The entry is put back with one more retransmission, and that is what the call counts as.
      have hxid : waiting.xid = msg.xid := Calls.xid_of_find? hget
      rw [track_call_fst hdirection (Matcher.onCall_again hget msg)]
      refine ⟨hwf.put (hxid ▸ hget), hsettings, hreplies, hcalls.trans ?_, hdirections,
        hrepeated.put hwf hget⟩
      simp only [List.foldl, Stats.countMatch, ahead, reduceCtorEq, if_false]
      show _ = _ + _ + _ + (b.matcher.expire msg.seen).1.length + dropped + 0
      omega
  | reply =>
    rw [hdirection] at hreplies hcalls
    simp only [ahead, reduceCtorEq, Option.some.injEq, if_true, if_false] at hreplies hcalls
    cases hget : (b.matcher.expire msg.seen).1.get? msg.flow msg.xid with
    | none =>
      rw [track_reply_fst hdirection (Matcher.onReply_orphan hget)]
      exact ⟨hwf, hsettings, hreplies, hcalls, hdirections, hrepeated⟩
    | some waiting =>
      -- One call fewer waits and one more is matched; the reply is no longer ahead.
      have hlength := hwf.length_take hget
      rw [track_reply_fst hdirection (Matcher.onReply_matched hget)]
      refine ⟨hwf.take hget, hsettings, hreplies.trans ?_, hcalls.trans ?_, hdirections,
        hrepeated.take hwf hget⟩
      · exact Nat.add_right_comm ..
      · simp only [List.foldl, Stats.countMatch, ahead, reduceCtorEq, if_false]
        omega

/-- A count goes round if a call that was repeated as often as it can count is repeated again. -/
theorem Balanced.round_track (h : b.Balanced settings dropped unpaired) {msg : Message}
    (hround : (b.track msg).2.any Event.wrapped = true) :
    UInt32.size ≤ (b.track msg).1.stats.retransmissions := by
  cases hdirection : msg.direction with
  | reply =>
    rw [any_wrapped_track_reply h.wellFormed hdirection] at hround
    cases hround
  | call =>
    rw [any_wrapped_track_call hdirection] at hround
    cases hget : (b.matcher.expire msg.seen).1.get? msg.flow msg.xid with
    | none =>
      rw [h.wellFormed.any_wrapped_onCall_new hget] at hround
      cases hround
    | some waiting =>
      rw [h.wellFormed.any_wrapped_onCall_again hget] at hround
      have hfull := toNat_succ_of_wrapped hround
      have hexpired := h.expire msg.seen
      have hwaiting :
          waiting.retransmissions.toNat ≤ (b.expire msg.seen).1.stats.retransmissions := by
        rw [expire_fst] at hexpired ⊢
        exact hexpired.repeated _ (hexpired.wellFormed.get?_eq_some_iff.mp hget).1
      rw [track_call_fst hdirection (Matcher.onCall_again hget msg)]
      show UInt32.size ≤ (b.expire msg.seen).1.stats.retransmissions + 1
      omega

/-- At the end of a capture every call that waits times out or is dropped. -/
theorem Balanced.close (h : b.Balanced settings dropped none) :
    b.close.1.Balanced
      settings (dropped + if settings.flushOnFinish then 0 else b.matcher.length) none := by
  obtain ⟨hwf, rfl, hreplies, hcalls, hdirections, -⟩ := h
  have hclose : b.close.1 = ⟨b.matcher.finish.1,
      b.matcher.finish.2.foldl Stats.countMatch b.stats⟩ := settle_fst ..
  rw [hclose]
  cases hflush : b.matcher.settings.flushOnFinish with
  | false =>
    have htold : b.matcher.finish.2 = [] := by simp [Matcher.finish, hflush]
    rw [htold]
    refine ⟨.new _, rfl, hreplies, hcalls.trans ?_, hdirections, .new _ _⟩
    simp only [List.foldl_nil, Bool.false_eq_true, if_false]
    show _ = _ + _ + _ + 0 + _ + 0
    simp only [ahead, reduceCtorEq, if_false]
    omega
  | true =>
    -- They are told in the order of their numbers, which does not change how many there are.
    have hlength : (b.matcher.waiting.mergeSort
        fun a b => a.2.seen.seq ≤ b.2.seen.seq).length = b.matcher.length :=
      (List.length_mergeSort _).trans hwf.pending.symm
    have htold : b.matcher.finish.2 = (b.matcher.waiting.mergeSort
        fun a b => a.2.seen.seq ≤ b.2.seen.seq).map Matcher.timeoutOf := by
      simp only [Matcher.finish, hflush, if_true]
      rfl
    rw [htold, foldl_countMatch_timeoutOf, hlength]
    refine ⟨.new _, rfl, hreplies, hcalls.trans ?_, hdirections, .new _ _⟩
    show _ = _ + (_ + _) + _ + 0 + (_ + 0) + 0
    simp only [ahead, reduceCtorEq, if_false]
    omega

/-! ### What only counts errors and gaps -/

theorem Balanced.fail (h : b.Balanced settings dropped unpaired) (p : Packet) (e : DecodeError) :
    (b.fail p e).1.Balanced settings dropped unpaired :=
  ⟨h.wellFormed, h.settings, h.replies, h.calls, h.directions, h.repeated⟩

theorem Balanced.accept (h : b.Balanced settings dropped unpaired) (p : Packet)
    (result : Except DecodeError (Option Rpc.Body)) :
    (b.accept p result).1.Balanced settings dropped unpaired := by
  cases result with
  | ok body => exact h
  | error e => exact h.fail p e

theorem Balanced.lack (h : b.Balanced settings dropped unpaired) (p : Packet) (xid : UInt32)
    (refs : List ChunkRef) : (b.lack p xid refs).1.Balanced settings dropped unpaired := by
  induction refs generalizing b with
  | nil => exact h
  | cons ref rest ih =>
    exact ih ⟨h.wellFormed, h.settings, h.replies, h.calls, h.directions, h.repeated⟩

theorem Balanced.failDangling (h : b.Balanced settings dropped unpaired) (maxRecord : Nat)
    (streams : Streams) :
    (b.failDangling maxRecord streams).1.Balanced settings dropped unpaired := by
  induction streams generalizing b with
  | nil => exact h
  | cons stream rest ih =>
    unfold Books.failDangling
    cases Rpc.readRecord stream.2 maxRecord with
    | ok record => exact ih h
    | error e =>
      exact ih ⟨h.wellFormed, h.settings, h.replies, h.calls, h.directions, h.repeated⟩

end Books

/-! ## Messages, records and packets -/

/-- A message is counted once, and handed to the matcher once. If it is told with a count that has
gone round, so many repetitions are counted. -/
structure Books.Handles (b : Books) (settings : MatcherSettings) (dropped : Nat)
    (r : Books × List Event) : Prop where
  counts : b.Counts r.2 r.1
  balanced : r.1.Balanced settings dropped none
  round : r.2.any Event.wrapped = true → UInt32.size ≤ r.1.stats.retransmissions

namespace Books.Handles

variable {b : Books} {settings : MatcherSettings} {dropped dropped' : Nat}
  {r r' : Books × List Event}

theorem refl (h : b.Balanced settings dropped none) : b.Handles settings dropped (b, []) :=
  ⟨.refl b, h, nofun⟩

theorem trans (h : b.Handles settings dropped r) (h' : r.1.Handles settings dropped' r') :
    b.Handles settings dropped' (r'.1, r.2 ++ r'.2) := by
  refine ⟨h.counts.trans h'.counts, h'.balanced, fun hround => ?_⟩
  rw [List.any_append, Bool.or_eq_true] at hround
  rcases hround with hfirst | hlater
  · -- Repetitions are counted on, so there are no fewer of them later.
    have hgrown : r'.1.stats.retransmissions =
        r.1.stats.retransmissions + tally r'.2 .retransmission := h'.counts .retransmission
    have hsize := h.round hfirst
    show UInt32.size ≤ r'.1.stats.retransmissions
    omega
  · exact h'.round hlater

theorem quiet (hcounts : b.Counts r.2 r.1) (hbalanced : r.1.Balanced settings dropped none)
    (hquiet : r.2.any Event.wrapped = false) : b.Handles settings dropped r := by
  refine ⟨hcounts, hbalanced, fun hround => ?_⟩
  rw [hquiet] at hround
  cases hround

theorem fail (h : b.Balanced settings dropped none) (p : Packet) (e : DecodeError) :
    b.Handles settings dropped (b.fail p e) :=
  .quiet (b.counts_fail p e) (h.fail p e) rfl

theorem failDangling (h : b.Balanced settings dropped none) (maxRecord : Nat)
    (streams : Streams) : b.Handles settings dropped (b.failDangling maxRecord streams) :=
  .quiet (b.counts_failDangling maxRecord streams) (h.failDangling maxRecord streams)
    (b.any_wrapped_failDangling maxRecord streams)

theorem close (h : b.Balanced settings dropped none) :
    b.Handles settings (dropped + if settings.flushOnFinish then 0 else b.matcher.length)
      b.close :=
  .quiet (counts_close h.wellFormed) h.close b.any_wrapped_close

end Books.Handles

section Messages

variable {b : Books} {settings : MatcherSettings} {dropped : Nat} {s : DecoderSettings}
  {p : Packet}

theorem messageBody_keeps {header : Rpc.Header} {stream : Bytes} {chunks : Option ChunkMap}
    {unpaired : Option Rpc.Direction} (h : b.Balanced settings dropped unpaired) :
    b.Counts (messageBody s b p header stream chunks).2.1
        (messageBody s b p header stream chunks).1 ∧
      (messageBody s b p header stream chunks).1.Balanced settings dropped unpaired := by
  unfold messageBody
  cases header.content with
  | call call => exact ⟨.refl b, h⟩
  | reply reply => exact ⟨b.counts_expire h.wellFormed p.seen, h.expire p.seen⟩

theorem handleMessage_handles (h : b.Balanced settings dropped none) (stream : Bytes)
    (chunks : Option ChunkMap) (rdma : Option Rdma.Header) :
    b.Handles settings dropped (handleMessage s b p stream chunks rdma) := by
  cases hopen : openMessage s stream rdma with
  | error e =>
    rw [handleMessage_error hopen]
    exact .fail h p e
  | ok header =>
    rw [handleMessage_ok hopen]
    extract_lets read taken gaps msg paired
    have hread : (b.countMessage header.direction).Counts read.2.1 read.1 ∧
        read.1.Balanced settings dropped (some header.direction) :=
      messageBody_keeps (h.countMessage header.direction)
    have htaken : read.1.Counts taken.2.1 taken.1 := read.1.counts_accept p read.2.2
    have hgaps : taken.1.Counts gaps.2 gaps.1 := taken.1.counts_lack p header.xid _
    have hunpaired : gaps.1.Balanced settings dropped (some msg.direction) :=
      (hread.2.accept p read.2.2).lack p header.xid _
    have hpaired : gaps.1.Counts paired.2 paired.1 := Books.counts_track hunpaired.wellFormed msg
    refine ⟨fun k => ?_, hunpaired.track, fun hround => hunpaired.round_track ?_⟩
    · -- The message is told later than it is counted.
      rw [(((hread.1.trans htaken).trans hgaps).trans hpaired) k,
        b.counts_countMessage header.direction msg k]
      simp only [tally_append]
      omega
    · have hpairing := any_wrapped_handleMessage h.wellFormed hopen p chunks
      rw [handleMessage_ok hopen] at hpairing
      exact hpairing.symm.trans hround

theorem handleEach_handles (h : b.Balanced settings dropped none) (messages : List Bytes) :
    b.Handles settings dropped (handleEach s b p messages) := by
  induction messages generalizing b with
  | nil => exact .refl h
  | cons message rest ih =>
    have hfirst := handleMessage_handles (s := s) (p := p) h message none none
    exact hfirst.trans (ih hfirst.balanced)

theorem lose_handles (h : b.Balanced settings dropped none) (broken : Option DecodeError) :
    b.Handles settings dropped (b.lose p broken) := by
  cases broken with
  | none => exact .refl h
  | some e => exact .fail h p e

theorem handleRecords_handles (h : b.Balanced settings dropped none) (used : Nat) (data : Bytes) :
    b.Handles settings dropped
      ((handleRecords s b p used data).1, (handleRecords s b p used data).2.2) := by
  rw [handleRecords_eq]
  have hhandled := handleEach_handles (s := s) (p := p) h (harvest s.maxRecord used data).records
  exact hhandled.trans (lose_handles hhandled.balanced (harvest s.maxRecord used data).broken)

theorem handleRdma_handles (h : b.Balanced settings dropped none) (source : Rdma.ChunkSource) :
    b.Handles settings dropped (handleRdma s source b p) := by
  cases hread : Rdma.reassemble p.payload source s.strictEnums with
  | error e =>
    rw [handleRdma_error hread]
    exact .fail h p e
  | ok read =>
    obtain ⟨header, payload⟩ := read
    cases payload with
    | error e =>
      rw [handleRdma_peerError hread]
      have hunpaired : b.countPeerError.Balanced settings dropped (some .reply) := h.countPeerError
      exact ⟨(b.counts_countPeerError p header).trans (Books.counts_track hunpaired.wellFormed _),
        hunpaired.track, hunpaired.round_track⟩
    | unresolved ref =>
      rw [handleRdma_unresolved hread]
      extract_lets direction lacked msg paired
      have hlacked : b.Counts lacked.2 lacked.1 := b.counts_lack p header.xid [ref]
      have hunpaired : (lacked.1.countMessage direction).Balanced settings dropped
          (some msg.direction) := (h.lack p header.xid [ref]).countMessage direction
      refine ⟨(hlacked.trans (lacked.1.counts_countMessage direction msg)).trans
        (Books.counts_track hunpaired.wellFormed msg), hunpaired.track, fun hround => ?_⟩
      have hquiet : lacked.2.any Event.wrapped = false := b.any_wrapped_lack p header.xid [ref]
      simp only [List.any_append, hquiet] at hround
      exact hunpaired.round_track hround
    | message stream chunks =>
      rw [handleRdma_message hread]
      exact handleMessage_handles h ..

end Messages

section Captures

variable {d : Decoder} {settings : MatcherSettings} {dropped : Nat}

theorem Books.Balanced.counted (h : d.toBooks.Balanced settings dropped none) :
    d.counted.Balanced settings dropped none :=
  ⟨h.wellFormed, h.settings, h.replies, h.calls, h.directions, h.repeated⟩

/-- What is asked of a step of a decoder. -/
abbrev Decoder.Keeps (d : Decoder) (settings : MatcherSettings) (dropped : Nat)
    (r : Decoder × List Event) : Prop :=
  d.toBooks.Handles settings dropped (r.1.toBooks, r.2)

theorem process_keeps (h : d.toBooks.Balanced settings dropped none) (p : Packet) :
    d.Keeps settings dropped (d.process p) := by
  have hcounted := h.counted
  -- No event tells of a packet as such, so the counter of packets is no concern here.
  suffices hd : d.counted.Handles settings dropped ((d.process p).1.toBooks, (d.process p).2) from
    ⟨fun k => (hd.counts k).trans (by cases k <;> rfl), hd.balanced, hd.round⟩
  cases htransport : p.transport with
  | udp =>
    rw [d.process_udp p htransport]
    exact handleMessage_handles hcounted ..
  | tcp =>
    rw [d.process_tcp p htransport]
    exact handleRecords_handles hcounted ..
  | rdma =>
    rw [d.process_rdma p htransport]
    exact handleRdma_handles hcounted ..

theorem processAll_keeps (h : d.toBooks.Balanced settings dropped none) (packets : List Packet) :
    d.Keeps settings dropped (d.processAll packets) := by
  induction packets generalizing d with
  | nil => exact .refl h
  | cons p rest ih =>
    have hfirst := process_keeps h p
    exact hfirst.trans (ih hfirst.balanced)

theorem handle_keeps (h : d.toBooks.Balanced settings dropped none) (p : Packet) :
    d.Keeps settings dropped (d.handle p) := by
  unfold Decoder.handle
  cases d.reorder with
  | none => exact process_keeps h p
  | some buffer =>
    let d' : Decoder := { d with reorder := some (buffer.push p.seen.seq p).1 }
    exact processAll_keeps (d := d') h _

theorem release_keeps (h : d.toBooks.Balanced settings dropped none) :
    d.Keeps settings dropped d.release := by
  unfold Decoder.release
  cases d.reorder with
  | none => exact .refl h
  | some buffer =>
    let d' : Decoder := { d with reorder := some buffer.flush.1 }
    exact processAll_keeps (d := d') h _

theorem finish_keeps (h : d.toBooks.Balanced settings dropped none) :
    d.Keeps settings
      (dropped + if settings.flushOnFinish then 0 else d.release.1.pending) d.finish := by
  have hreleased := release_keeps h
  have hdangling := Books.Handles.failDangling hreleased.balanced d.release.1.settings.maxRecord
    d.release.1.streams.sorted
  have hclosed := Books.Handles.close hdangling.balanced
  rw [Books.matcher_failDangling] at hclosed
  exact (hreleased.trans hdangling).trans hclosed

end Captures

/-! ## Sessions -/

/-- The books of a session are in order: they come from empty ones by what was told. -/
structure Session.Audited (settings : DecoderSettings) (s : Session) : Prop where
  configured : s.decoder.settings = settings
  handled : Books.Handles { matcher := .new settings.matcher, stats := {} } settings.matcher
    s.dropped (s.decoder.toBooks, s.told)

namespace Session

variable {settings : DecoderSettings} {s : Session}

theorem Audited.new (settings : DecoderSettings) (source : Rdma.ChunkSource) :
    (new settings source).Audited settings :=
  ⟨rfl, .refl (.new settings.matcher)⟩

theorem Audited.told (h : s.Audited settings) (k : Event.Kind) :
    s.decoder.stats.counter k = tally s.told k := by
  have hempty : Stats.counter {} k = 0 := by cases k <;> rfl
  have hcounts := h.handled.counts k
  rwa [hempty, Nat.zero_add] at hcounts

theorem Audited.next (h : s.Audited settings) (f : Feed) : (s.next f).Audited settings := by
  have hkeeps : s.decoder.Keeps settings.matcher (s.dropped + s.decoder.drops f)
      (s.decoder.feed f) := by
    cases f with
    | packet p => exact handle_keeps h.handled.balanced p
    | finish =>
      have hfinish := finish_keeps h.handled.balanced
      rw [← h.configured] at hfinish ⊢
      exact hfinish
  have hsettings : (s.decoder.feed f).1.settings = s.decoder.settings := by
    cases f with
    | packet p => exact s.decoder.settings_handle p
    | finish => exact s.decoder.settings_release
  exact ⟨hsettings.trans h.configured, h.handled.trans hkeeps⟩

theorem Audited.run (settings : DecoderSettings) (source : Rdma.ChunkSource) (feeds : List Feed) :
    (run settings source feeds).Audited settings := by
  suffices hfold : ∀ s : Session, s.Audited settings →
      (feeds.foldl Session.next s).Audited settings from
    hfold _ (.new settings source)
  intro s h
  induction feeds generalizing s with
  | nil => exact h
  | cons f rest ih => exact ih _ (h.next f)

end Session

/-- **The books balance after every packet and every end of a capture.** All that is counted was
told and all that is told is counted; each reply has one verdict; calls and replies are the
messages and the transport errors of peers; and a call was paired, timed out, seen before, dropped
at the end of a capture, or waits. -/
theorem books_balance (settings : DecoderSettings) (source : Rdma.ChunkSource)
    (feeds : List Feed) :
    let s := Session.run settings source feeds
    let stats := s.decoder.stats
    (∀ k, stats.counter k = tally s.told k) ∧
      stats.replies = stats.matched + stats.orphans ∧
      stats.calls + stats.replies = stats.messages + stats.rdmaErrors ∧
      stats.calls = stats.matched + stats.timeouts + stats.retransmissions + s.decoder.pending +
        s.dropped := by
  intro s stats
  have haudited := Session.Audited.run settings source feeds
  have hbalanced := haudited.handled.balanced
  exact ⟨haudited.told, hbalanced.replies, hbalanced.directions, hbalanced.calls⟩

/-- A call, the same once more, two replies to it, and a call that is dropped at the end. -/
example :
    let client : Endpoint := ⟨default, 800⟩
    let server : Endpoint := ⟨default, 2049⟩
    let call (seq : Nat) (xid : UInt8) : Feed := .packet ⟨⟨seq, none⟩, client, server, .udp,
      [0, 0, 0, xid, 0, 0, 0, 0, 0, 0, 0, 2, 0, 1, 0x86, 0xa3, 0, 0, 0, 3, 0, 0, 0, 0,
        0, 0, 0, 0, 0, 0, 0, 0, 0, 0, 0, 0, 0, 0, 0, 0]⟩
    let reply (seq : Nat) (xid : UInt8) : Feed := .packet ⟨⟨seq, none⟩, server, client, .udp,
      [0, 0, 0, xid, 0, 0, 0, 1, 0, 0, 0, 0, 0, 0, 0, 0, 0, 0, 0, 0, 0, 0, 0, 0]⟩
    let s := Session.run { matcher := { flushOnFinish := false } } (fun _ _ _ => none)
      [call 1 7, call 2 7, reply 3 7, reply 4 7, call 5 8, .finish]
    s.decoder.stats.calls = 3 ∧ s.decoder.stats.matched = 1 ∧ s.decoder.stats.orphans = 1 ∧
      s.decoder.stats.retransmissions = 1 ∧ s.dropped = 1 ∧ tally s.told .message = 5 := by
  decide +kernel

end NfsWire
