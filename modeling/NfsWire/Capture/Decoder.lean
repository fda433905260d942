import NfsWire.Capture.Matcher
import NfsWire.Capture.Reorder
import NfsWire.Capture.Stats
import NfsWire.Rdma.Reassembly
import NfsWire.Rpc.Record

/-!
# Decoding a capture

Packets go in, events come out. On the way a packet is

1. put back in order, if that is asked for;
2. unpacked: a datagram is a message, a piece of a byte stream completes records, and a
   transfer over RDMA is put together from header and chunks;
3. decoded: the header of the message, then its body by the procedure of the call;
4. paired: calls wait for their replies.

**A reply does not name its procedure.** The waiting call does. Overdue calls are therefore
given up before the call is looked for, and pairing at the same observation finds the same
call.

**Errors are local.** A message whose header cannot be read is reported and has no further
effect. One whose body cannot be read is reported too, and paired all the same.
-/

namespace NfsWire

/-! ## State -/

structure DecoderSettings where
  /-- Refuse codes that their table does not name. -/
  strictEnums : Bool := false
  matcher : MatcherSettings := {}
  /-- A message over RDMA must have the transaction id of its transport header. -/
  requireXidMatch : Bool := true
  /-- The longest record of a byte stream. -/
  maxRecord : Nat := 1048576
  /-- The most packets held to put them in order; with none, packets are handled as they
  come. -/
  reorderWindow : Nat := 0
  /-- The sequence number the capture starts at, or none if it starts at its first packet. -/
  reorderFirst : Option Nat := none
  deriving DecidableEq, Repr, Inhabited

/-- The two ends of a byte stream, the sender first. -/
abbrev StreamKey := Endpoint × Endpoint

/-- The octets of each stream that no record used yet. Streams without any are not kept. -/
abbrev Streams := List (StreamKey × Bytes)

namespace Streams

/-- The unused octets of a stream. -/
def get (s : Streams) (key : StreamKey) : Bytes :=
  ((List.find? (·.1 == key) s).map (·.2)).getD []

/-- Replace the unused octets of a stream. -/
def set (s : Streams) (key : StreamKey) (data : Bytes) : Streams :=
  let others := List.filter (·.1 != key) s
  if data.isEmpty then others else others ++ [(key, data)]

/-- The streams in the order of their senders, then of their receivers. -/
def sorted (s : Streams) : Streams :=
  List.mergeSort s fun a b =>
    lexLe (a.1.1.orderKey ++ a.1.2.orderKey) (b.1.1.orderKey ++ b.1.2.orderKey)

end Streams

/-- What messages change: the calls that wait, and the counters. -/
structure Books where
  matcher : Matcher Message
  stats : Stats

/-- A decoder in the middle of a capture. -/
structure Decoder extends Books where
  settings : DecoderSettings
  source : Rdma.ChunkSource
  streams : Streams
  reorder : Option (Reorder Packet)

/-- A decoder at the start of a capture. -/
def Decoder.new (settings : DecoderSettings) (source : Rdma.ChunkSource) : Decoder where
  settings
  source
  matcher := .new settings.matcher
  streams := []
  reorder :=
    if settings.reorderWindow = 0 then none
    else some (.new settings.reorderFirst settings.reorderWindow)
  stats := {}

/-- The number of calls that wait for a reply. -/
def Decoder.pending (d : Decoder) : Nat := d.matcher.length

/-! ## Telling and counting

Each of these gives the books after it and what the world is told. -/

/-- What the world is told of a pairing, and what is left of the message that was observed: a
verdict on a reply takes it. -/
def Event.ofMatch (reply : Option Message) : MatchEvent Message → List Event × Option Message
  | .matched _ call _ =>
    ((reply.map fun r => .matched call.call r call.retransmissions).toList, none)
  | .orphan .. => ((reply.map .orphanReply).toList, none)
  | .retransmission flow xid count seen => ([.retransmission flow xid count seen.seq], reply)
  | .timeout _ call => ([.timeout call.call call.retransmissions], reply)

namespace Books

/-- An error of a packet. -/
def fail (b : Books) (p : Packet) (e : DecodeError) : Books × List Event :=
  ({ b with stats := b.stats.countError e }, [p.error e])

/-- What the matcher told; `reply` is the message that was observed, if a reply was. -/
def settle (b : Books) (reply : Option Message) :
    List (MatchEvent Message) → Books × List Event
  | [] => (b, [])
  | e :: rest =>
    let (told, left) := Event.ofMatch reply e
    let (b, more) := settle { b with stats := b.stats.countMatch e } left rest
    (b, told ++ more)

/-- Chunks that the capture lacks. -/
def lack (b : Books) (p : Packet) (xid : UInt32) : List ChunkRef → Books × List Event
  | [] => (b, [])
  | ref :: rest =>
    let stats := { b.stats with unresolved := b.stats.unresolved + 1 }
    let (b, more) := lack { b with stats } p xid rest
    (b, .unresolved p.seen.seq xid ref :: more)

/-- Calls that are given up. -/
def expire (b : Books) (now : Observation) : Books × List Event :=
  let (matcher, overdue) := b.matcher.expire now
  settle { b with matcher } none overdue

/-- A message that is handed to the matcher. -/
def track (b : Books) (msg : Message) : Books × List Event :=
  match msg.direction with
  | .call =>
    let (matcher, events) := b.matcher.onCall msg.flow msg.xid msg msg.seen
    settle { b with matcher } none events
  | .reply =>
    let (matcher, events) := b.matcher.onReply msg.flow msg.xid msg.seen
    settle { b with matcher } (some msg) events

/-- The end of the capture for the calls that still wait. -/
def close (b : Books) : Books × List Event :=
  let (matcher, settled) := b.matcher.finish
  settle { b with matcher } none settled

end Books

/-! ## Messages -/

/-- The body of a call: its arguments, if it is made by the version of the call protocol that
is understood. -/
def callBody (s : DecoderSettings) (call : Rpc.Call) (stream : Bytes) (offset : Nat)
    (chunks : Option ChunkMap) : Except DecodeError Rpc.Body :=
  if call.rpcVersion = Rpc.version then
    Rpc.decodeBody call.program call.version call.procedure .args stream offset s.strictEnums chunks
  else .ok (.raw stream offset)

/-- The body of a reply: the results of the waiting call's procedure, if there are any. -/
def replyBody (s : DecoderSettings) (reply : Rpc.Reply) (waiting : Option Message)
    (stream : Bytes) (offset : Nat) (chunks : Option ChunkMap) :
    Except DecodeError (Option Rpc.Body) :=
  if reply.isSuccess then
    match waiting.bind (·.call?) with
    | some call =>
      some <$> Rpc.decodeBody call.program call.version call.procedure .results stream offset
        s.strictEnums chunks
    | none => .ok (some (.raw stream offset))
  else .ok none

/-- Read the header of a message and check it against its transport header. -/
def openMessage (s : DecoderSettings) (stream : Bytes) (rdma : Option Rdma.Header) :
    Except DecodeError Rpc.Header := do
  let header ← Rpc.decodeHeader stream s.strictEnums
  match rdma with
  | some transport => if s.requireXidMatch then Rdma.checkXid transport header.xid
  | none => pure ()
  return header

/-- The body of a message. Before that of a reply is read, whatever is overdue is given up, so
that the waiting call is found that the reply will be paired with. -/
def messageBody (s : DecoderSettings) (b : Books) (p : Packet) (header : Rpc.Header)
    (stream : Bytes) (chunks : Option ChunkMap) :
    Books × List Event × Except DecodeError (Option Rpc.Body) :=
  match header.content with
  | .call call => (b, [], some <$> callBody s call stream header.bodyOffset chunks)
  | .reply reply =>
    let (b, overdue) := b.expire p.seen
    let waiting := (b.matcher.get? (p.flow .reply) header.xid).map (·.call)
    (b, overdue, replyBody s reply waiting stream header.bodyOffset chunks)

/-- The body, or none and an error if it could not be read. -/
def Books.accept (b : Books) (p : Packet) :
    Except DecodeError (Option Rpc.Body) → Books × List Event × Option Rpc.Body
  | .ok body => (b, [], body)
  | .error e =>
    let (b, told) := b.fail p e
    (b, told, none)

/-- The message of a packet with this header and body. -/
def Message.ofHeader (p : Packet) (header : Rpc.Header) (rdma : Option Rdma.Header)
    (body : Option Rpc.Body) : Message where
  seen := p.seen
  flow := p.flow header.direction
  transport := p.transport
  xid := header.xid
  direction := header.direction
  header := some header
  rdma
  body

/-- What a body leaves open because the capture lacks it. -/
def missingOf (body : Option Rpc.Body) : List ChunkRef :=
  match body with
  | some body => body.value.missing
  | none => []

/-- Decode and pair one message. -/
def handleMessage (s : DecoderSettings) (b : Books) (p : Packet) (stream : Bytes)
    (chunks : Option ChunkMap) (rdma : Option Rdma.Header) : Books × List Event :=
  match openMessage s stream rdma with
  | .error e => b.fail p e
  | .ok header =>
    let b := { b with stats := b.stats.countMessage header.direction }
    let (b, overdue, result) := messageBody s b p header stream chunks
    let (b, errors, body) := b.accept p result
    let msg := Message.ofHeader p header rdma body
    let (b, gaps) := b.lack p header.xid (missingOf body)
    let (b, paired) := b.track msg
    (b, overdue ++ errors ++ gaps ++ [.message msg] ++ paired)

/-! ## Transports -/

/-- Take the records off a byte stream and decode them as they complete; the answer has the
octets that no record used. At a framing error the record boundaries are lost, and the stream
with them. `used` counts the octets taken before. -/
def handleRecords (s : DecoderSettings) (b : Books) (p : Packet) (used : Nat)
    (data : Bytes) : Books × Bytes × List Event :=
  if data.length = 0 then (b, [], [])
  else
    match _h : Rpc.readRecord data s.maxRecord with
    | .ok (record, n) =>
      let (b, events) := handleMessage s b p record none none
      let (b, rest, more) := handleRecords s b p (used + n) (data.drop n)
      (b, rest, events ++ more)
    | .error e =>
      if e.fault.isTruncated then (b, data, [])
      else
        let (b, told) := b.fail p (e.atBase used)
        (b, [], told)
termination_by data.length
decreasing_by
  have := Rpc.used_of_readRecord _h
  simp only [List.length_drop]
  omega

/-- Decode a payload with a transport header. -/
def handleRdma (s : DecoderSettings) (source : Rdma.ChunkSource) (b : Books)
    (p : Packet) : Books × List Event :=
  match Rdma.reassemble p.payload source s.strictEnums with
  | .error e => b.fail p e
  | .ok (header, .error _) =>
    -- A peer that cannot handle the header of a call answers with an error of its own.
    let stats := { b.stats with rdmaErrors := b.stats.rdmaErrors + 1 }.countDirection .reply
    let (b, paired) := { b with stats }.track (.ofRdma p .reply header none)
    (b, .rdmaError p.seen.seq p.src p.dst header :: paired)
  | .ok (header, .unresolved ref) =>
    -- A whole message in a read chunk is a call, one in a reply chunk a reply.
    let direction := if ref.kind = .read then Rpc.Direction.call else .reply
    let (b, gap) := b.lack p header.xid [ref]
    let b := { b with stats := b.stats.countMessage direction }
    let msg := Message.ofRdma p direction header (some (.unnamed (.unresolved ref)))
    let (b, paired) := b.track msg
    (b, gap ++ [.message msg] ++ paired)
  | .ok (header, .message stream chunks) =>
    handleMessage s b p stream (some chunks) (some header)

/-! ## Packets -/

namespace Decoder

/-- Unpack, decode and pair one packet. -/
def process (d : Decoder) (p : Packet) : Decoder × List Event :=
  let b : Books := { d.toBooks with stats.packets := d.stats.packets + 1 }
  match p.transport with
  | .udp =>
    let (b, events) := handleMessage d.settings b p p.payload none none
    ({ d with toBooks := b }, events)
  | .tcp =>
    let key := (p.src, p.dst)
    let (b, rest, events) := handleRecords d.settings b p 0 (d.streams.get key ++ p.payload)
    ({ d with toBooks := b, streams := d.streams.set key rest }, events)
  | .rdma =>
    let (b, events) := handleRdma d.settings d.source b p
    ({ d with toBooks := b }, events)

/-- Process packets in order. -/
def processAll (d : Decoder) : List Packet → Decoder × List Event
  | [] => (d, [])
  | p :: rest =>
    let (d, events) := d.process p
    let (d, more) := d.processAll rest
    (d, events ++ more)

/-- Take in one packet. -/
def handle (d : Decoder) (p : Packet) : Decoder × List Event :=
  match d.reorder with
  | none => d.process p
  | some buffer =>
    let (buffer, ready) := buffer.push p.seen.seq p
    { d with reorder := some buffer }.processAll ready

/-- Process the packets that are still held. -/
def release (d : Decoder) : Decoder × List Event :=
  match d.reorder with
  | none => (d, [])
  | some buffer =>
    let (buffer, held) := buffer.flush
    { d with reorder := some buffer }.processAll held

end Decoder

/-- Report the streams that end in the middle of a record. -/
def Books.failDangling (b : Books) (maxRecord : Nat) : Streams → Books × List Event
  | [] => (b, [])
  | ((src, dst), data) :: rest =>
    match Rpc.readRecord data maxRecord with
    | .ok _ => b.failDangling maxRecord rest
    | .error e =>
      let (b, more) := { b with stats := b.stats.countError e }.failDangling maxRecord rest
      (b, .error 0 src dst .tcp e :: more)

/-- End the capture: process the packets still held, report unfinished records and settle the
waiting calls. -/
def Decoder.finish (d : Decoder) : Decoder × List Event :=
  let (d, events) := d.release
  let (b, dangling) := d.toBooks.failDangling d.settings.maxRecord d.streams.sorted
  let (b, settled) := b.close
  ({ d with toBooks := b, streams := [] }, events ++ dangling ++ settled)

end NfsWire
