import NfsWire.Capture.Decoder

/-!
# Sessions of a decoder

A session is a decoder that takes in packets and ends captures, in any order and as often as one
likes. What was told so far is kept beside it, and so is the number of calls that were dropped by
ending a capture without reporting them.

The equations of this file take the steps of the decoder apart, so that what holds of a session is
proved piece by piece.
-/

namespace NfsWire

/-! ## Steps as equations -/

namespace Books

theorem settle_cons (b : Books) (reply : Option Message) (e : MatchEvent Message)
    (rest : List (MatchEvent Message)) :
    b.settle reply (e :: rest) =
      let later := settle { b with stats := b.stats.countMatch e } (Event.ofMatch reply e).2 rest
      (later.1, (Event.ofMatch reply e).1 ++ later.2) := rfl

/-- What the matcher told changes the counters only. -/
theorem settle_fst (b : Books) (reply : Option Message) (events : List (MatchEvent Message)) :
    (b.settle reply events).1 = { b with stats := events.foldl Stats.countMatch b.stats } := by
  induction events generalizing b reply with
  | nil => rfl
  | cons e rest ih =>
    rw [settle_cons]
    exact ih ..

/-- Giving up in the books is giving up in the matcher. -/
theorem expire_fst (b : Books) (now : Observation) :
    (b.expire now).1 = ⟨(b.matcher.expire now).1,
      (b.matcher.expire now).2.foldl Stats.countMatch b.stats⟩ :=
  settle_fst ..

/-- The books in which a message is counted. -/
def countMessage (b : Books) (direction : Rpc.Direction) : Books :=
  { b with stats := b.stats.countMessage direction }

/-- The books in which an error of a peer is counted, and the reply that it stands for. -/
def countPeerError (b : Books) : Books :=
  { b with stats := { b.stats with rdmaErrors := b.stats.rdmaErrors + 1 }.countDirection .reply }

/-! What tells of errors and gaps does not touch the matcher. -/

theorem matcher_accept (b : Books) (p : Packet) (result : Except DecodeError (Option Rpc.Body)) :
    (b.accept p result).1.matcher = b.matcher := by
  cases result with
  | ok body => rfl
  | error e => rfl

theorem matcher_lack (b : Books) (p : Packet) (xid : UInt32) (refs : List ChunkRef) :
    (b.lack p xid refs).1.matcher = b.matcher := by
  induction refs generalizing b with
  | nil => rfl
  | cons ref rest ih => exact ih _

theorem matcher_failDangling (b : Books) (maxRecord : Nat) (streams : Streams) :
    (b.failDangling maxRecord streams).1.matcher = b.matcher := by
  induction streams generalizing b with
  | nil => rfl
  | cons stream rest ih =>
    unfold failDangling
    cases Rpc.readRecord stream.2 maxRecord with
    | ok record => exact ih b
    | error e => exact ih _

end Books

section Messages

variable {s : DecoderSettings} {b : Books} {p : Packet} {stream : Bytes}
  {chunks : Option ChunkMap} {rdma : Option Rdma.Header} {source : Rdma.ChunkSource}

theorem handleMessage_error {e : DecodeError} (h : openMessage s stream rdma = .error e) :
    handleMessage s b p stream chunks rdma = b.fail p e := by
  rw [handleMessage, h]

/-- A message with a header is counted, its body read, and what was read is paired. -/
theorem handleMessage_ok {header : Rpc.Header} (h : openMessage s stream rdma = .ok header) :
    handleMessage s b p stream chunks rdma =
      let read := messageBody s (b.countMessage header.direction) p header stream chunks
      let taken := read.1.accept p read.2.2
      let gaps := taken.1.lack p header.xid (missingOf taken.2.2)
      let msg := Message.ofHeader p header rdma taken.2.2
      let paired := gaps.1.track msg
      (paired.1, read.2.1 ++ taken.2.1 ++ gaps.2 ++ [.message msg] ++ paired.2) := by
  rw [handleMessage, h]
  rfl

theorem handleRdma_error {e : DecodeError}
    (h : Rdma.reassemble p.payload source s.strictEnums = .error e) :
    handleRdma s source b p = b.fail p e := by
  rw [handleRdma, h]

/-- An error of a peer is counted as the reply that it stands for, and paired. -/
theorem handleRdma_peerError {header : Rdma.Header} {e : Rdma.PeerError}
    (h : Rdma.reassemble p.payload source s.strictEnums = .ok (header, .error e)) :
    handleRdma s source b p =
      let paired := b.countPeerError.track (.ofRdma p .reply header none)
      (paired.1, .rdmaError p.seen.seq p.src p.dst header :: paired.2) := by
  rw [handleRdma, h]
  rfl

/-- A message that the capture lacks is told as a gap, counted, and paired. -/
theorem handleRdma_unresolved {header : Rdma.Header} {ref : ChunkRef}
    (h : Rdma.reassemble p.payload source s.strictEnums = .ok (header, .unresolved ref)) :
    handleRdma s source b p =
      let direction := if ref.kind = .read then Rpc.Direction.call else .reply
      let lacked := b.lack p header.xid [ref]
      let msg := Message.ofRdma p direction header (some (.unnamed (.unresolved ref)))
      let paired := (lacked.1.countMessage direction).track msg
      (paired.1, lacked.2 ++ [.message msg] ++ paired.2) := by
  rw [handleRdma, h]
  rfl

theorem handleRdma_message {header : Rdma.Header} {map : ChunkMap}
    (h : Rdma.reassemble p.payload source s.strictEnums = .ok (header, .message stream map)) :
    handleRdma s source b p = handleMessage s b p stream (some map) (some header) := by
  rw [handleRdma, h]

end Messages

namespace Decoder

variable (d : Decoder) (p : Packet)

/-- The books in which a packet is counted. -/
def counted : Books := { d.toBooks with stats.packets := d.stats.packets + 1 }

theorem process_udp (h : p.transport = .udp) :
    d.process p =
      ({ d with toBooks := (handleMessage d.settings d.counted p p.payload none none).1 },
        (handleMessage d.settings d.counted p p.payload none none).2) := by
  rw [process, h]
  rfl

theorem process_tcp (h : p.transport = .tcp) :
    d.process p =
      let taken := handleRecords d.settings d.counted p 0
        (d.streams.get (p.src, p.dst) ++ p.payload)
      ({ d with toBooks := taken.1, streams := d.streams.set (p.src, p.dst) taken.2.1 },
        taken.2.2) := by
  rw [process, h]
  rfl

theorem process_rdma (h : p.transport = .rdma) :
    d.process p =
      ({ d with toBooks := (handleRdma d.settings d.source d.counted p).1 },
        (handleRdma d.settings d.source d.counted p).2) := by
  rw [process, h]
  rfl

theorem settings_process : (d.process p).1.settings = d.settings := by
  cases h : p.transport with
  | udp => rw [process_udp d p h]
  | tcp => rw [process_tcp d p h]
  | rdma => rw [process_rdma d p h]

theorem source_process : (d.process p).1.source = d.source := by
  cases h : p.transport with
  | udp => rw [process_udp d p h]
  | tcp => rw [process_tcp d p h]
  | rdma => rw [process_rdma d p h]

theorem reorder_process : (d.process p).1.reorder = d.reorder := by
  cases h : p.transport with
  | udp => rw [process_udp d p h]
  | tcp => rw [process_tcp d p h]
  | rdma => rw [process_rdma d p h]

theorem processAll_cons (packets : List Packet) :
    d.processAll (p :: packets) =
      (((d.process p).1.processAll packets).1,
        (d.process p).2 ++ ((d.process p).1.processAll packets).2) := rfl

theorem settings_processAll (packets : List Packet) :
    (d.processAll packets).1.settings = d.settings := by
  induction packets generalizing d with
  | nil => rfl
  | cons p rest ih =>
    rw [processAll_cons]
    exact (ih _).trans (settings_process d p)

theorem source_processAll (packets : List Packet) :
    (d.processAll packets).1.source = d.source := by
  induction packets generalizing d with
  | nil => rfl
  | cons p rest ih =>
    rw [processAll_cons]
    exact (ih _).trans (source_process d p)

theorem reorder_processAll (packets : List Packet) :
    (d.processAll packets).1.reorder = d.reorder := by
  induction packets generalizing d with
  | nil => rfl
  | cons p rest ih =>
    rw [processAll_cons]
    exact (ih _).trans (reorder_process d p)

theorem settings_handle : (d.handle p).1.settings = d.settings := by
  unfold handle
  cases d.reorder with
  | none => exact settings_process d p
  | some buffer => exact settings_processAll ..

theorem settings_release : d.release.1.settings = d.settings := by
  unfold release
  cases d.reorder with
  | none => rfl
  | some buffer => exact settings_processAll ..

theorem source_release : d.release.1.source = d.source := by
  unfold release
  cases d.reorder with
  | none => rfl
  | some buffer => exact source_processAll ..

end Decoder

/-! ## Sessions -/

/-- What a decoder is given: a packet, or the end of the capture. -/
inductive Feed where
  | packet (p : Packet)
  | finish
  deriving DecidableEq, Repr

/-- Take it in. -/
def Decoder.feed (d : Decoder) : Feed → Decoder × List Event
  | .packet p => d.handle p
  | .finish => d.finish

/-- The number of calls that are dropped without an event: those that wait when a capture ends,
after the held packets, if they are not reported. -/
def Decoder.drops (d : Decoder) : Feed → Nat
  | .packet _ => 0
  | .finish => if d.settings.matcher.flushOnFinish then 0 else d.release.1.pending

/-- A decoder, what it has told so far, and how many calls it has dropped. -/
structure Session where
  decoder : Decoder
  told : List Event
  dropped : Nat

namespace Session

/-- A session in which nothing was taken in yet. -/
def new (settings : DecoderSettings) (source : Rdma.ChunkSource) : Session :=
  { decoder := .new settings source, told := [], dropped := 0 }

/-- Take in one more. -/
def next (s : Session) (f : Feed) : Session :=
  { decoder := (s.decoder.feed f).1
    told := s.told ++ (s.decoder.feed f).2
    dropped := s.dropped + s.decoder.drops f }

/-- A session that has taken in all of these. -/
def run (settings : DecoderSettings) (source : Rdma.ChunkSource) (feeds : List Feed) : Session :=
  feeds.foldl next (new settings source)

end Session

end NfsWire
