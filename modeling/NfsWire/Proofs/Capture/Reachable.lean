import NfsWire.Proofs.Capture.Census
import NfsWire.Proofs.Capture.Records
import NfsWire.Proofs.Capture.Session
import NfsWire.Proofs.Capture.Store

/-!
# What a decoder can get to

The matcher of a decoder is not any matcher of messages. What the decoder lets in are calls, each
under its own flow and transaction id and at its own observation (`Matcher.OfMessages`), so whatever
waits there is a call.

A decoder can be looked at between packets, but also in the middle of `handle` or `finish`, while
the packets of a reorder buffer are processed one after the other. `Decoder.Reachable` has all these
states.
-/

namespace NfsWire

/-! ## What waits is a call -/

namespace Matcher

variable {α : Type} {m : Matcher α} {now : Observation} {flow : Flow} {xid : UInt32}
  {call : Pending α}

theorem get?_of_serve {tickets : List Ticket}
    (h : (m.serve now tickets).1.get? flow xid = some call) : m.get? flow xid = some call := by
  induction tickets generalizing m with
  | nil => exact h
  | cons t rest ih =>
    unfold serve at h
    cases hget : m.get? t.flow t.xid with
    | none =>
      simp only [hget] at h
      exact ih h
    | some waiting =>
      simp only [hget] at h
      split at h
      · split at h
        · have htake := ih h
          rw [get?_take] at htake
          split at htake
          · cases htake
          · exact htake
        · exact h
      · exact ih h

/-- What waits after giving up was waiting before. -/
theorem get?_of_expire (h : (m.expire now).1.get? flow xid = some call) :
    m.get? flow xid = some call :=
  get?_of_serve h

end Matcher

/-- A message whose header, if it was seen, is the header of a call. -/
def Message.IsCall (msg : Message) : Prop :=
  ∀ header, msg.header = some header → ∃ call, header.content = .call call

/-- The matchers of decoders. -/
inductive Matcher.OfMessages : Matcher Message → Prop where
  | new (settings : MatcherSettings) : OfMessages (.new settings)
  | call {m : Matcher Message} {msg : Message} :
      OfMessages m → msg.IsCall → OfMessages (m.onCall msg.flow msg.xid msg msg.seen).1
  | reply {m : Matcher Message} (flow : Flow) (xid : UInt32) (seen : Observation) :
      OfMessages m → OfMessages (m.onReply flow xid seen).1
  | expire {m : Matcher Message} (now : Observation) :
      OfMessages m → OfMessages (m.expire now).1

theorem Matcher.OfMessages.isCall {m : Matcher Message} (h : m.OfMessages) {flow : Flow}
    {xid : UInt32} {waiting : Pending Message} (hget : m.get? flow xid = some waiting) :
    waiting.call.IsCall := by
  induction h generalizing flow xid waiting with
  | new settings => cases hget
  | expire now _ ih => exact ih (get?_of_expire hget)
  | @call m msg _ hcall ih =>
    cases hknown : (m.expire msg.seen).1.get? msg.flow msg.xid with
    | none =>
      rw [onCall_new hknown, get?_enrol] at hget
      split at hget
      · cases hget
        exact hcall
      · exact ih (get?_of_expire hget)
    | some known =>
      rw [onCall_again hknown, get?_put] at hget
      split at hget
      · -- A call that is seen again keeps the message that was seen first.
        cases hget
        have hbefore : known.call.IsCall := ih (get?_of_expire hknown)
        exact hbefore
      · exact ih (get?_of_expire hget)
  | @reply m flow' xid' seen _ ih =>
    cases hknown : (m.expire seen).1.get? flow' xid' with
    | none =>
      rw [onReply_orphan hknown] at hget
      exact ih (get?_of_expire hget)
    | some known =>
      rw [onReply_matched hknown, get?_take] at hget
      split at hget
      · cases hget
      · exact ih (get?_of_expire hget)

/-! ## The matcher of a decoder -/

namespace Books

variable {b : Books}

theorem matcher_lose (b : Books) (p : Packet) (broken : Option DecodeError) :
    (b.lose p broken).1.matcher = b.matcher := by
  cases broken with
  | none => rfl
  | some e => rfl

theorem track_ofMessages (h : b.matcher.OfMessages) {msg : Message}
    (hmsg : msg.direction = .call → msg.IsCall) : (b.track msg).1.matcher.OfMessages := by
  unfold track
  cases hdirection : msg.direction with
  | call =>
    show (settle _ none _).1.matcher.OfMessages
    rw [settle_fst]
    exact h.call (hmsg hdirection)
  | reply =>
    show (settle _ (some msg) _).1.matcher.OfMessages
    rw [settle_fst]
    exact h.reply msg.flow msg.xid msg.seen

end Books

section Messages

variable {b : Books} {s : DecoderSettings} {p : Packet}

theorem isCall_ofHeader {header : Rpc.Header} (h : header.direction = .call)
    (rdma : Option Rdma.Header) (body : Option Rpc.Body) :
    (Message.ofHeader p header rdma body).IsCall := by
  rintro _ ⟨⟩
  unfold Rpc.Header.direction at h
  cases hcontent : header.content with
  | call call => exact ⟨call, rfl⟩
  | reply reply =>
    rw [hcontent] at h
    cases h

theorem messageBody_ofMessages (h : b.matcher.OfMessages) (header : Rpc.Header)
    (stream : Bytes) (chunks : Option ChunkMap) :
    (messageBody s b p header stream chunks).1.matcher.OfMessages := by
  unfold messageBody
  cases header.content with
  | call call => exact h
  | reply reply =>
    show (b.expire p.seen).1.matcher.OfMessages
    rw [b.expire_fst]
    exact h.expire p.seen

theorem handleMessage_ofMessages (h : b.matcher.OfMessages) (stream : Bytes)
    (chunks : Option ChunkMap) (rdma : Option Rdma.Header) :
    (handleMessage s b p stream chunks rdma).1.matcher.OfMessages := by
  cases hopen : openMessage s stream rdma with
  | error e =>
    rw [handleMessage_error hopen]
    exact h
  | ok header =>
    rw [handleMessage_ok hopen]
    extract_lets read taken gaps msg paired
    have hcounted : (b.countMessage header.direction).matcher.OfMessages := h
    have hread : read.1.matcher.OfMessages := messageBody_ofMessages hcounted header stream chunks
    have hgaps : gaps.1.matcher = read.1.matcher :=
      (taken.1.matcher_lack p header.xid _).trans (read.1.matcher_accept p read.2.2)
    exact Books.track_ofMessages (hgaps ▸ hread) fun hcall => isCall_ofHeader hcall rdma taken.2.2

theorem handleEach_ofMessages (h : b.matcher.OfMessages) (messages : List Bytes) :
    (handleEach s b p messages).1.matcher.OfMessages := by
  induction messages generalizing b with
  | nil => exact h
  | cons message rest ih => exact ih (handleMessage_ofMessages h message none none)

/-- Where no header was seen, none is that of a reply. -/
theorem isCall_ofRdma (direction : Rpc.Direction) (header : Rdma.Header)
    (body : Option Rpc.Body) : (Message.ofRdma p direction header body).IsCall := by
  rintro _ ⟨⟩

theorem handleRdma_ofMessages (h : b.matcher.OfMessages) (source : Rdma.ChunkSource) :
    (handleRdma s source b p).1.matcher.OfMessages := by
  cases hread : Rdma.reassemble p.payload source s.strictEnums with
  | error e =>
    rw [handleRdma_error hread]
    exact h
  | ok read =>
    obtain ⟨header, payload⟩ := read
    cases payload with
    | error e =>
      rw [handleRdma_peerError hread]
      have hcounted : b.countPeerError.matcher.OfMessages := h
      exact Books.track_ofMessages hcounted fun _ => isCall_ofRdma .reply header none
    | unresolved ref =>
      rw [handleRdma_unresolved hread]
      extract_lets direction lacked msg paired
      have hlacked : lacked.1.matcher = b.matcher := b.matcher_lack p header.xid [ref]
      have hcounted : (lacked.1.countMessage direction).matcher.OfMessages := hlacked ▸ h
      exact Books.track_ofMessages hcounted fun _ => isCall_ofRdma direction header _
    | message stream chunks =>
      rw [handleRdma_message hread]
      exact handleMessage_ofMessages h stream (some chunks) (some header)

end Messages

/-! ## The states of a decoder -/

/-- The decoders that a capture leads to: between packets, and while the packets that a reorder
buffer gave out are processed one after the other. -/
inductive Decoder.Reachable (settings : DecoderSettings) (source : Rdma.ChunkSource) :
    Decoder → Prop where
  | new : Reachable settings source (.new settings source)
  | held {d : Decoder} (buffer : Reorder Packet) :
      Reachable settings source d → Reachable settings source { d with reorder := some buffer }
  | process {d : Decoder} (p : Packet) :
      Reachable settings source d → Reachable settings source (d.process p).1
  | finish {d : Decoder} : Reachable settings source d → Reachable settings source d.finish.1

namespace Decoder.Reachable

variable {settings : DecoderSettings} {source : Rdma.ChunkSource} {d : Decoder}

theorem processAll (h : d.Reachable settings source) (packets : List Packet) :
    (d.processAll packets).1.Reachable settings source := by
  induction packets generalizing d with
  | nil => exact h
  | cons p rest ih => exact ih (h.process p)

theorem handle (h : d.Reachable settings source) (p : Packet) :
    (d.handle p).1.Reachable settings source := by
  unfold Decoder.handle
  cases d.reorder with
  | none => exact h.process p
  | some buffer => exact (h.held (buffer.push p.seen.seq p).1).processAll _

/-- All sessions are covered. -/
theorem run (settings : DecoderSettings) (source : Rdma.ChunkSource) (feeds : List Feed) :
    (Session.run settings source feeds).decoder.Reachable settings source := by
  suffices hfold : ∀ s : Session, s.decoder.Reachable settings source →
      (feeds.foldl Session.next s).decoder.Reachable settings source from
    hfold _ .new
  intro s h
  induction feeds generalizing s with
  | nil => exact h
  | cons f rest ih =>
    refine ih (s.next f) ?_
    cases f with
    | packet p => exact h.handle p
    | finish => exact h.finish

theorem ofMessages (h : d.Reachable settings source) : d.matcher.OfMessages := by
  induction h with
  | new => exact .new settings.matcher
  | held buffer _ ih => exact ih
  | @process d p _ ih =>
    have hcounted : d.counted.matcher.OfMessages := ih
    cases htransport : p.transport with
    | udp =>
      rw [d.process_udp p htransport]
      exact handleMessage_ofMessages hcounted ..
    | tcp =>
      rw [d.process_tcp p htransport, handleRecords_eq]
      show (Books.lose _ p _).1.matcher.OfMessages
      rw [Books.matcher_lose]
      exact handleEach_ofMessages hcounted _
    | rdma =>
      rw [d.process_rdma p htransport]
      exact handleRdma_ofMessages hcounted d.source
  | @finish d _ ih =>
    have hclosed (b : Books) : b.close.1.matcher = .new b.matcher.settings :=
      congrArg Books.matcher (Books.settle_fst ..)
    show (Books.close _).1.matcher.OfMessages
    rw [hclosed]
    exact .new _

end Decoder.Reachable

end NfsWire
