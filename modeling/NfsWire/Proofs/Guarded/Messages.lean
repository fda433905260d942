import NfsWire.Proofs.Capture.Balance
import NfsWire.Proofs.Guarded.Matcher
import NfsWire.Proofs.Guarded.Rdma
import NfsWire.Proofs.Guarded.Rpc

/-!
# Guarded messages and transports

From a packet to what is told of it, put together from guarded readers and a guarded matcher. What
comes in here is the state of the books: nothing goes wrong with books that balance, and they stay
balanced from one message to the next. A count that goes round is the exception. Whether one has
gone round on the way is seen in what is told (`Event.wrapped`).

The octets of a stream are kept in one buffer. Records are taken off at a position that moves on,
and at the end the octets before it are dropped (`handleRecords`). The position stays within the
buffer, since a record is read from what is behind it and takes no more than that.
-/

namespace NfsWire.Guarded

/-! ## Books -/

/-- Calls that are given up. -/
def Books.expire (b : Books) (now : Observation) : Option (Books × List Event) := do
  let (matcher, overdue) ← Matcher.expire b.matcher now
  return Books.settle { b with matcher } none overdue

/-- A message that is handed to the matcher. -/
def Books.track (o : Overflow) (b : Books) (msg : Message) : Option (Books × List Event) :=
  match msg.direction with
  | .call => do
    let (matcher, events) ← Matcher.onCall o b.matcher msg.flow msg.xid msg msg.seen
    return Books.settle { b with matcher } none events
  | .reply => do
    let (matcher, events) ← Matcher.onReply b.matcher msg.flow msg.xid msg.seen
    return Books.settle { b with matcher } (some msg) events

/-- Report the streams that end in the middle of a record. -/
def Books.failDangling (b : Books) (maxRecord : Nat) : Streams → Option (Books × List Event)
  | [] => some (b, [])
  | ((src, dst), data) :: rest => do
    match ← readRecord data maxRecord with
    | .ok _ => Books.failDangling b maxRecord rest
    | .error e =>
      let failed := { b with stats := b.stats.countError e }
      let (b, more) ← Books.failDangling failed maxRecord rest
      return (b, .error 0 src dst .tcp e :: more)

section Equations

variable {b : Books}

theorem Books.expire_eq (h : b.matcher.WellFormed) (now : Observation) :
    Books.expire b now = some (b.expire now) := by
  unfold Books.expire
  rw [Matcher.expire_eq h]
  rfl

theorem Books.track_eq (o : Overflow) (h : b.matcher.WellFormed) (msg : Message) :
    Books.track o b msg = o.result ((b.track msg).2.any Event.wrapped) (b.track msg) := by
  cases hdirection : msg.direction with
  | call =>
    rw [NfsWire.Books.any_wrapped_track_call hdirection]
    simp only [Books.track, NfsWire.Books.track, hdirection]
    rw [Matcher.onCall_eq o h]
    exact o.result_map _ _ _
  | reply =>
    rw [NfsWire.Books.any_wrapped_track_reply h hdirection, o.result_false]
    simp only [Books.track, NfsWire.Books.track, hdirection]
    rw [Matcher.onReply_eq h]
    rfl

theorem Books.failDangling_eq (b : Books) (maxRecord : Nat) (streams : Streams) :
    Books.failDangling b maxRecord streams = some (b.failDangling maxRecord streams) := by
  induction streams generalizing b with
  | nil => rfl
  | cons stream rest ih =>
    rw [Books.failDangling, NfsWire.Books.failDangling, readRecord_eq]
    simp only [Option.bind_eq_bind, Option.bind_some]
    cases Rpc.readRecord stream.2 maxRecord with
    | ok record => exact ih b
    | error e =>
      dsimp only
      rw [ih]
      rfl

end Equations

/-! ## Messages -/

/-- The body of a call. -/
def callBody (s : DecoderSettings) (call : Rpc.Call) (stream : Bytes) (offset : Nat)
    (chunks : Option ChunkMap) : Option (Except DecodeError Rpc.Body) :=
  if call.rpcVersion = Rpc.version then
    decodeBody call.program call.version call.procedure .args stream offset s.strictEnums chunks
  else some (.ok (.raw stream offset))

/-- The body of a reply: the results of the waiting call's procedure, if there are any. -/
def replyBody (s : DecoderSettings) (reply : Rpc.Reply) (waiting : Option Message)
    (stream : Bytes) (offset : Nat) (chunks : Option ChunkMap) :
    Option (Except DecodeError (Option Rpc.Body)) :=
  if reply.isSuccess then
    match waiting.bind (·.call?) with
    | some call => do
      let body ← decodeBody call.program call.version call.procedure .results stream offset
        s.strictEnums chunks
      return some <$> body
    | none => some (.ok (some (.raw stream offset)))
  else some (.ok none)

/-- Read the header of a message and check it against its transport header. -/
def openMessage (s : DecoderSettings) (stream : Bytes) (rdma : Option Rdma.Header) :
    Option (Except DecodeError Rpc.Header) := do
  match ← decodeHeader stream s.strictEnums with
  | .error e => return .error e
  | .ok header =>
    match rdma with
    | some transport =>
      if s.requireXidMatch then return (Rdma.checkXid transport header.xid).map fun _ => header
      else return .ok header
    | none => return .ok header

/-- The body of a message. Before that of a reply is read, whatever is overdue is given up. -/
def messageBody (s : DecoderSettings) (b : Books) (p : Packet) (header : Rpc.Header)
    (stream : Bytes) (chunks : Option ChunkMap) :
    Option (Books × List Event × Except DecodeError (Option Rpc.Body)) :=
  match header.content with
  | .call call => do
    let body ← callBody s call stream header.bodyOffset chunks
    return (b, [], some <$> body)
  | .reply reply => do
    let (b, overdue) ← Books.expire b p.seen
    let waiting := (b.matcher.get? (p.flow .reply) header.xid).map (·.call)
    return (b, overdue, ← replyBody s reply waiting stream header.bodyOffset chunks)

/-- Decode and pair one message. -/
def handleMessage (o : Overflow) (s : DecoderSettings) (b : Books) (p : Packet) (stream : Bytes)
    (chunks : Option ChunkMap) (rdma : Option Rdma.Header) : Option (Books × List Event) := do
  match ← openMessage s stream rdma with
  | .error e => return b.fail p e
  | .ok header =>
    let (b, overdue, result) ←
      messageBody s (b.countMessage header.direction) p header stream chunks
    let (b, errors, body) := b.accept p result
    let msg := Message.ofHeader p header rdma body
    let (b, gaps) := b.lack p header.xid (missingOf body)
    let (b, paired) ← Books.track o b msg
    return (b, overdue ++ errors ++ gaps ++ [.message msg] ++ paired)

section Equations

variable {s : DecoderSettings} {b : Books} {settings : MatcherSettings} {dropped : Nat}

theorem callBody_eq (s : DecoderSettings) (call : Rpc.Call) (stream : Bytes) (offset : Nat)
    (chunks : Option ChunkMap) :
    callBody s call stream offset chunks =
      some (NfsWire.callBody s call stream offset chunks) := by
  unfold callBody NfsWire.callBody
  split
  · exact decodeBody_eq ..
  · rfl

theorem replyBody_eq (s : DecoderSettings) (reply : Rpc.Reply) (waiting : Option Message)
    (stream : Bytes) (offset : Nat) (chunks : Option ChunkMap) :
    replyBody s reply waiting stream offset chunks =
      some (NfsWire.replyBody s reply waiting stream offset chunks) := by
  unfold replyBody NfsWire.replyBody
  split
  · cases waiting.bind (·.call?) with
    | none => rfl
    | some call =>
      dsimp only
      rw [decodeBody_eq]
      rfl
  · rfl

theorem openMessage_eq (s : DecoderSettings) (stream : Bytes) (rdma : Option Rdma.Header) :
    openMessage s stream rdma = some (NfsWire.openMessage s stream rdma) := by
  unfold openMessage NfsWire.openMessage
  rw [decodeHeader_eq]
  simp only [Option.bind_eq_bind, Option.bind_some]
  cases Rpc.decodeHeader stream s.strictEnums with
  | error e => rfl
  | ok header =>
    cases rdma with
    | none => rfl
    | some transport =>
      cases hmatch : s.requireXidMatch with
      | false => rfl
      | true =>
        dsimp only
        show _ = some (Except.bind (Rdma.checkXid transport header.xid) _)
        cases Rdma.checkXid transport header.xid with
        | error e => rfl
        | ok _ => rfl

theorem messageBody_eq (h : b.matcher.WellFormed) (s : DecoderSettings) (p : Packet)
    (header : Rpc.Header) (stream : Bytes) (chunks : Option ChunkMap) :
    messageBody s b p header stream chunks =
      some (NfsWire.messageBody s b p header stream chunks) := by
  unfold messageBody NfsWire.messageBody
  cases header.content with
  | call call =>
    dsimp only
    rw [callBody_eq]
    rfl
  | reply reply =>
    simp only [Books.expire_eq h, Option.bind_eq_bind, Option.bind_some, replyBody_eq]
    rfl

/-- **No operation on a message is out of range**, if the books balance. -/
theorem handleMessage_eq (o : Overflow) (h : b.Balanced settings dropped none)
    (s : DecoderSettings) (p : Packet) (stream : Bytes) (chunks : Option ChunkMap)
    (rdma : Option Rdma.Header) :
    handleMessage o s b p stream chunks rdma =
      o.result ((NfsWire.handleMessage s b p stream chunks rdma).2.any Event.wrapped)
        (NfsWire.handleMessage s b p stream chunks rdma) := by
  unfold handleMessage
  rw [openMessage_eq]
  simp only [Option.bind_eq_bind, Option.bind_some]
  cases hopen : NfsWire.openMessage s stream rdma with
  | error e =>
    rw [handleMessage_error hopen]
    exact (o.result_false _).symm
  | ok header =>
    rw [any_wrapped_handleMessage h.wellFormed hopen, handleMessage_ok hopen]
    extract_lets read taken gaps msg paired
    have hcounted := h.countMessage header.direction
    have hread : read.1.Balanced settings dropped (some header.direction) :=
      (messageBody_keeps hcounted).2
    have hgaps : gaps.1.Balanced settings dropped (some header.direction) :=
      (hread.accept p read.2.2).lack p header.xid (missingOf taken.2.2)
    dsimp only
    rw [messageBody_eq hcounted.wellFormed]
    show (Books.track o gaps.1 msg).bind _ = _
    rw [Books.track_eq o hgaps.wellFormed]
    exact o.result_map _ _ _

end Equations

/-! ## Transports -/

/-- Take the records off a buffer and decode them as they complete; the answer has the octets that
no record used. `used` counts the octets taken before. It comes to an end within `fuel` records. -/
def handleRecords (o : Overflow) (s : DecoderSettings) (p : Packet) (buffer : Bytes) :
    (fuel : Nat) → (b : Books) → (used : Nat) → Option (Books × Bytes × List Event)
  | 0, _, _ => none
  | fuel + 1, b, used =>
    if used < buffer.length then do
      match ← readRecord (← slice buffer used buffer.length) s.maxRecord with
      | .ok (record, n) =>
        let (b, events) ← handleMessage o s b p record none none
        let (b, rest, more) ← handleRecords o s p buffer fuel b (used + n)
        return (b, rest, events ++ more)
      | .error e =>
        if e.fault.isTruncated then return (b, ← slice buffer used buffer.length, [])
        else
          let (b, told) := b.fail p (e.atBase used)
          return (b, ← slice buffer buffer.length buffer.length, told)
    else do return (b, ← slice buffer used buffer.length, [])

/-- Decode a payload with a transport header. -/
def handleRdma (o : Overflow) (s : DecoderSettings) (source : Source) (b : Books) (p : Packet) :
    Option (Books × List Event) := do
  match ← reassemble p.payload source s.strictEnums with
  | .error e => return b.fail p e
  | .ok (header, .error _) =>
    let (b, paired) ← Books.track o b.countPeerError (.ofRdma p .reply header none)
    return (b, .rdmaError p.seen.seq p.src p.dst header :: paired)
  | .ok (header, .unresolved ref) =>
    let direction := if ref.kind = .read then Rpc.Direction.call else .reply
    let (b, gap) := b.lack p header.xid [ref]
    let msg := Message.ofRdma p direction header (some (.unnamed (.unresolved ref)))
    let (b, paired) ← Books.track o (b.countMessage direction) msg
    return (b, gap ++ [.message msg] ++ paired)
  | .ok (header, .message stream chunks) =>
    handleMessage o s b p stream (some chunks) (some header)

section Equations

variable {s : DecoderSettings} {b : Books} {settings : MatcherSettings} {dropped : Nat}

/-- **The position of a stream stays in its buffer**, and each record moves it on. -/
theorem handleRecords_eq (o : Overflow) {p : Packet} {buffer : Bytes} {fuel used : Nat}
    (h : b.Balanced settings dropped none) (hused : used ≤ buffer.length)
    (hfuel : buffer.length - used < fuel) :
    handleRecords o s p buffer fuel b used =
      o.result ((NfsWire.handleRecords s b p used (buffer.drop used)).2.2.any Event.wrapped)
        (NfsWire.handleRecords s b p used (buffer.drop used)) := by
  induction fuel generalizing b used with
  | zero => omega
  | succ fuel ih =>
    have hlength : (buffer.drop used).length = buffer.length - used := List.length_drop
    rw [handleRecords, NfsWire.handleRecords, slice_from hused]
    split
    next hmore =>
      rw [if_neg (by omega)]
      simp only [Option.bind_eq_bind, Option.bind_some, readRecord_eq]
      split
      next record n hread =>
        -- A record takes octets from behind the position, which moves on within the buffer.
        have htaken := Rpc.used_of_readRecord hread
        have hhandled := handleMessage_handles (s := s) (p := p) h record none none
        rw [hread, handleMessage_eq o h]
        simp only [List.any_append]
        refine o.result_bind ?_
        rw [ih hhandled.balanced (by omega) (by omega), List.drop_drop]
        exact o.result_map _ _ _
      next e hread =>
        rw [hread]
        dsimp only
        split
        · exact (o.result_false _).symm
        · rw [slice_from (Nat.le_refl _), List.drop_length]
          exact (o.result_false _).symm
    next hend =>
      rw [if_pos (by omega), List.drop_of_length_le (Nat.le_of_not_lt hend)]
      exact (o.result_false _).symm

/-- **No operation on a transfer is out of range**, where none is on what the capture has. -/
theorem handleRdma_eq (o : Overflow) {source : Source} {plain : Rdma.ChunkSource}
    (hsource : ∀ handle offset length,
      source handle offset length = some (plain handle offset length))
    (h : b.Balanced settings dropped none) (s : DecoderSettings) (p : Packet) :
    handleRdma o s source b p =
      o.result ((NfsWire.handleRdma s plain b p).2.any Event.wrapped)
        (NfsWire.handleRdma s plain b p) := by
  unfold handleRdma
  rw [reassemble_eq hsource]
  simp only [Option.bind_eq_bind, Option.bind_some]
  cases hread : Rdma.reassemble p.payload plain s.strictEnums with
  | error e =>
    rw [handleRdma_error hread]
    exact (o.result_false _).symm
  | ok read =>
    obtain ⟨header, payload⟩ := read
    cases payload with
    | error e =>
      rw [handleRdma_peerError hread]
      dsimp only
      rw [Books.track_eq o h.countPeerError.wellFormed]
      exact o.result_map _ _ _
    | unresolved ref =>
      rw [handleRdma_unresolved hread]
      extract_lets direction lacked msg paired
      have hlacked : lacked.1.Balanced settings dropped none := h.lack p header.xid [ref]
      have hquiet : lacked.2.any Event.wrapped = false := b.any_wrapped_lack p header.xid [ref]
      simp only [List.any_append, hquiet]
      show (Books.track o (lacked.1.countMessage direction) msg).bind _ = _
      rw [Books.track_eq o (hlacked.countMessage direction).wellFormed]
      exact o.result_map _ _ _
    | message stream chunks =>
      rw [handleRdma_message hread]
      exact handleMessage_eq o h s p stream (some chunks) (some header)

end Equations

end NfsWire.Guarded
