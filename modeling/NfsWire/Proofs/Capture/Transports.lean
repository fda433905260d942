import NfsWire.Proofs.Capture.Alongside
import NfsWire.Proofs.Capture.Delivery
import NfsWire.Proofs.Rdma.Wire
import NfsWire.Proofs.Xdr.Emptied

/-!
# The transport does not change the message

A message comes as a datagram, as a record of a byte stream, behind a transport header, or in memory
that a transport header points at. What is told of it, and what the decoder keeps of it, is the same
but for the fields that say how it came, which `bareAnswer` takes away.

All four ways end in `handleMessage`, with the same octets and the same books. They differ in three
things, and none of them matters:

* the packet is asked only when it was seen and between which ends (`bare_handleMessage`);
* the chunk map is empty or missing (`handleMessage_emptied`);
* the transport header is asked for its transaction id, which is that of the message
  (`openMessage_transport`).

The message itself goes into the matcher, and comes out of it in later events. The matcher looks at
no part of it, so the two messages leave matchers that differ in nothing else (`bare_track`).
-/

namespace NfsWire

/-! ## What does not tell how a message came -/

/-- The message, as if it had come as a datagram. -/
def Message.bare (m : Message) : Message := { m with transport := .udp, rdma := none }

/-- The event, as if what it is about had come as a datagram. -/
def Event.bare : Event → Event
  | .message m => .message m.bare
  | .matched call reply n => .matched call.bare reply.bare n
  | .orphanReply reply => .orphanReply reply.bare
  | .timeout call n => .timeout call.bare n
  | .error seq src dst _ e => .error seq src dst .udp e
  | e => e

/-- The books, as if all messages in them had come as datagrams. -/
def Books.bare (b : Books) : Books := { matcher := b.matcher.map Message.bare, stats := b.stats }

/-- The packet, if it had come another way. -/
def Packet.via (p : Packet) (transport : Transport) (payload : Bytes) : Packet :=
  { p with transport, payload }

/-- The books after a step and what was told, without what tells how messages came. -/
def bareAnswer (r : Books × List Event) : Books × List Event := (r.1.bare, r.2.map Event.bare)

/-! ## Pairing -/

/-- How messages came is not looked at. -/
def View.bare : View where
  message := .bare
  event e := some e.bare
  stats := Eq

theorem View.bare_lawful : View.bare.Lawful where
  seen _ := rfl
  flow _ := rfl
  xid _ := rfl
  direction _ := rfl
  call? _ := rfl
  event e := by cases e <;> rfl
  stats tick _ _ _ h := congrArg tick h

theorem View.Same.bareAnswer_eq {r r' : Books × List Event} (h : View.bare.Same r r') :
    bareAnswer r = bareAnswer r' := by
  have htold (events : List Event) : View.bare.told events = events.map Event.bare :=
    congrFun List.filterMap_eq_map events
  refine Prod.ext ?_ ?_
  · show Books.mk (r.1.matcher.map Message.bare) r.1.stats =
      ⟨r'.1.matcher.map Message.bare, r'.1.stats⟩
    rw [show r.1.matcher.map Message.bare = _ from h.books.calls,
      show r.1.stats = r'.1.stats from h.books.stats]
    rfl
  · show r.2.map Event.bare = r'.2.map Event.bare
    rw [← htold, ← htold, h.told]

/-- **Messages that differ in how they came only are paired alike.** -/
theorem Books.bare_track (b : Books) (msg msg' : Message) (h : msg.bare = msg'.bare) :
    bareAnswer (b.track msg) = bareAnswer (b.track msg') := by
  have halike : View.bare.Alike b b := ⟨rfl, rfl⟩
  exact (halike.track View.bare_lawful msg msg' h).bareAnswer_eq

/-! ## Messages -/

section Messages

variable {s : DecoderSettings} {b : Books} {p : Packet} {stream : Bytes}

/-- **An empty chunk map is none.** -/
theorem handleMessage_emptied (rdma : Option Rdma.Header) :
    handleMessage s b p stream (some {}) rdma = handleMessage s b p stream none rdma := by
  have hcall (call : Rpc.Call) (offset : Nat) :
      callBody s call stream offset (some {}) = callBody s call stream offset none := by
    simp only [callBody, Rpc.decodeBody_emptied]
  have hreply (reply : Rpc.Reply) (waiting : Option Message) (offset : Nat) :
      replyBody s reply waiting stream offset (some {}) =
        replyBody s reply waiting stream offset none := by
    simp only [replyBody, Rpc.decodeBody_emptied]
  simp only [handleMessage, messageBody, hcall, hreply]

/-- A transport header with the transaction id of the message changes nothing. -/
theorem openMessage_transport {transport : Rdma.Header}
    (h : ∀ header, Rpc.decodeHeader stream s.strictEnums = .ok header →
      transport.xid = header.xid) :
    openMessage s stream (some transport) = openMessage s stream none := by
  unfold openMessage
  cases hheader : Rpc.decodeHeader stream s.strictEnums with
  | error e => rfl
  | ok header =>
    have hxid : Rdma.checkXid transport header.xid = .ok () := if_pos (h header hheader)
    show (if s.requireXidMatch then Rdma.checkXid transport header.xid >>= fun _ => pure header
      else pure header) = Except.ok header
    rw [hxid]
    split
    · rfl
    · rfl

theorem Books.lack_packet (b : Books) (p : Packet) (transport : Transport) (payload : Bytes)
    (xid : UInt32) (refs : List ChunkRef) :
    b.lack (p.via transport payload) xid refs = b.lack p xid refs := by
  induction refs generalizing b with
  | nil => rfl
  | cons ref rest ih =>
    simp only [Books.lack, ih]
    rfl

/-- The error of a body that could not be read says how the packet came. -/
theorem Books.accept_packet (b : Books) (p : Packet) (transport : Transport) (payload : Bytes)
    (result : Except DecodeError (Option Rpc.Body)) :
    let accepted := b.accept (p.via transport payload) result
    let accepted' := b.accept p result
    accepted.1 = accepted'.1 ∧ accepted.2.2 = accepted'.2.2 ∧
      accepted.2.1.map Event.bare = accepted'.2.1.map Event.bare := by
  cases result with
  | ok body => exact ⟨rfl, rfl, rfl⟩
  | error e => exact ⟨rfl, rfl, rfl⟩

/-- **Of the packet only the time and the ends are asked**, and of the transport header only whether
it fits the message. -/
theorem bare_handleMessage {rdma rdma' : Option Rdma.Header}
    (h : openMessage s stream rdma = openMessage s stream rdma') (chunks : Option ChunkMap)
    (transport : Transport) (payload : Bytes) :
    bareAnswer (handleMessage s b (p.via transport payload) stream chunks rdma) =
      bareAnswer (handleMessage s b p stream chunks rdma') := by
  cases hopen : openMessage s stream rdma' with
  | error e =>
    rw [handleMessage_error hopen, handleMessage_error (h.trans hopen)]
    rfl
  | ok header =>
    rw [handleMessage_ok hopen, handleMessage_ok (h.trans hopen)]
    -- Both read the same body from the same books.
    have hread : messageBody s (b.countMessage header.direction) (p.via transport payload)
        header stream chunks =
          messageBody s (b.countMessage header.direction) p header stream chunks := rfl
    simp only [hread, Books.lack_packet]
    obtain ⟨b, overdue, result⟩ := messageBody s (b.countMessage header.direction) p header stream
      chunks
    obtain ⟨hbooks, hbody, herrors⟩ := b.accept_packet p transport payload result
    rw [hbooks, hbody]
    -- The two messages that are paired differ in how they came only.
    obtain ⟨hpaired, hverdicts⟩ := Prod.ext_iff.mp <|
      ((b.accept p result).1.lack p header.xid (missingOf (b.accept p result).2.2)).1.bare_track
        (.ofHeader (p.via transport payload) header rdma (b.accept p result).2.2)
        (.ofHeader p header rdma' (b.accept p result).2.2) rfl
    refine Prod.ext hpaired ?_
    show List.map _ (_ ++ _) = List.map _ (_ ++ _)
    simp only [List.map_append, herrors]
    exact congrArg _ hverdicts

end Messages

/-! ## The transaction id -/

/-- A message starts with its transaction id. -/
theorem Rpc.reads_message {ctx : ReadContext} {c c' : Cursor} {record : Value}
    (h : Rpc.message.decode ctx c = .ok record c') :
    ∃ xid m, Rpc.word? record ["xid"] = some xid ∧ c.Reads (Bytes.word xid) m := by
  rw [Rpc.message, Shape.decode] at h
  obtain ⟨fields, m, hfields, hrecord⟩ := Reader.bind_ok_iff.mp h
  obtain ⟨rfl, -⟩ := Reader.pure_ok_iff.mp hrecord
  rw [Shape.decodeFields] at hfields
  obtain ⟨v, m₁, hv, hrest⟩ := Reader.bind_ok_iff.mp hfields
  obtain ⟨rest, m₂, -, hfields⟩ := Reader.bind_ok_iff.mp hrest
  obtain ⟨rfl, -⟩ := Reader.pure_ok_iff.mp hfields
  rw [Reader.within, Shape.decode] at hv
  obtain ⟨xid, m₃, hxid, hv⟩ := Reader.bind_ok_iff.mp hv
  obtain ⟨rfl, -⟩ := Reader.pure_ok_iff.mp hv
  exact ⟨xid, m₃, rfl, Reader.uint_ok_iff.mp hxid⟩

/-- The transaction id of a header is the first word of the message. -/
theorem Rpc.word_of_decodeHeader {input : Bytes} {strict : Bool} {header : Rpc.Header}
    (h : Rpc.decodeHeader input strict = .ok header) :
    4 ≤ input.length ∧ input.take 4 = Bytes.word header.xid := by
  unfold Rpc.decodeHeader at h
  split at h
  · cases h
  next record c hdecode =>
    obtain ⟨xid, m, hword, hreads⟩ := Rpc.reads_message hdecode
    have hinput : input = Bytes.word xid ++ m.rest := hreads.rest
    have hxid : header.xid = xid := by
      rw [Rpc.pick_of_eq_some hword] at h
      cases hcontent : Rpc.contentOf strict record with
      | error e =>
        rw [hcontent] at h
        cases h
      | ok content =>
        rw [hcontent] at h
        cases h
        rfl
    rw [hinput, hxid]
    exact ⟨by simp, List.take_left' (Bytes.length_word xid)⟩

/-- A transport header and a message with the same transaction id. -/
theorem openMessage_inner {s : DecoderSettings} {message : Bytes} {xid : UInt32}
    (hxid : 4 ≤ message.length → message.take 4 = Bytes.word xid) {transport : Rdma.Header}
    (htransport : transport.xid = xid) :
    openMessage s message (some transport) = openMessage s message none := by
  refine openMessage_transport fun header hheader => ?_
  obtain ⟨hlength, hword⟩ := Rpc.word_of_decodeHeader hheader
  rw [htransport]
  exact Bytes.word_inj ((hxid hlength).symm.trans hword)

/-! ## Packets -/

namespace Decoder

variable {d : Decoder} {p : Packet}

/-- What a packet does to the books, and what is told of it. -/
def answer (d : Decoder) (p : Packet) : Books × List Event :=
  ((d.handle p).1.toBooks, (d.handle p).2)

theorem answer_eq_process (hd : d.reorder = none) :
    d.answer p = ((d.process p).1.toBooks, (d.process p).2) := by
  rw [answer, handle, hd]

theorem answer_udp (hd : d.reorder = none) (hp : p.transport = .udp) :
    d.answer p = handleMessage d.settings d.counted p p.payload none none := by
  rw [answer_eq_process hd, process_udp d p hp]

theorem answer_tcp (hd : d.reorder = none) (hp : p.transport = .tcp) {fragments : List Bytes}
    (hfragments : Sendable d.settings.maxRecord fragments)
    (hempty : d.streams.get (p.src, p.dst) = []) (hpayload : p.payload = Rpc.frame fragments) :
    d.answer p = handleMessage d.settings d.counted p fragments.flatten none none := by
  have hharvest : harvest d.settings.maxRecord 0 (d.streams.get (p.src, p.dst) ++ p.payload) =
      ⟨[fragments.flatten], [], none⟩ := by
    have h := harvest_streamOf (List.forall_mem_singleton.mpr hfragments) (.inl rfl) 0
    rw [hempty, hpayload, List.nil_append]
    simpa [streamOf] using h
  rw [answer_eq_process hd, process_tcp d p hp, handleRecords_eq, hharvest]
  simp [handleEach, Books.lose]

theorem answer_rdma (hd : d.reorder = none) (hp : p.transport = .rdma) {header : Rdma.Header}
    {message : Bytes} (h : Rdma.reassemble p.payload d.source d.settings.strictEnums =
      .ok (header, .message message {})) :
    d.answer p = handleMessage d.settings d.counted p message (some {}) (some header) := by
  rw [answer_eq_process hd, process_rdma d p hp, handleRdma_message h]

end Decoder

/-- **The transport does not change the message.** In whatever state a decoder is that handles
packets as they come: the message of a datagram has the same effect and is told of in the same way
if it comes, from the same end and at the same time,

* as a record of a byte stream of which nothing is kept, in any fragments;
* behind a transport header with its transaction id that lists no chunks;
* away from such a header, in a read chunk at position zero or in the reply chunk, if those are the
  only chunks and the source has them.

This holds of messages of any octets, whether or not their header and body can be read. A message
without a whole transaction id goes with any. -/
theorem transports_agree (d : Decoder) (hreorder : d.reorder = none) (p : Packet)
    (hp : p.transport = .udp) (xid : UInt32)
    (hxid : 4 ≤ p.payload.length → p.payload.take 4 = Bytes.word xid) :
    (∀ fragments : List Bytes, fragments ≠ [] → fragments.flatten = p.payload →
      p.payload.length < 0x80000000 → p.payload.length ≤ d.settings.maxRecord →
      d.streams.get (p.src, p.dst) = [] →
        bareAnswer (d.answer (p.via .tcp (Rpc.frame fragments))) = bareAnswer (d.answer p)) ∧
    (∀ credit : UInt32,
      bareAnswer (d.answer (p.via .rdma (Rdma.headerOctets xid credit true {} ++ p.payload))) =
        bareAnswer (d.answer p)) ∧
    ∀ (credit : UInt32) (segments : List Rdma.Segment) (rest : Bytes),
      Rdma.resolve d.source segments = some p.payload →
        (segments ≠ [] →
          bareAnswer (d.answer (p.via .rdma
            (Rdma.headerOctets xid credit false (.ofCall segments) ++ rest))) =
              bareAnswer (d.answer p)) ∧
        (segments.length < UInt32.size →
          bareAnswer (d.answer (p.via .rdma
            (Rdma.headerOctets xid credit false (.ofReply segments) ++ rest))) =
              bareAnswer (d.answer p)) := by
  -- Behind a transport header that gives the message, it is handled as in a datagram.
  have hrdma {header : Rdma.Header} {payload : Bytes} (htransport : header.xid = xid)
      (h : Rdma.reassemble payload d.source d.settings.strictEnums =
        .ok (header, .message p.payload {})) :
      bareAnswer (d.answer (p.via .rdma payload)) = bareAnswer (d.answer p) := by
    have hanswer := Decoder.answer_rdma (p := p.via .rdma payload) hreorder rfl h
    rw [hanswer, Decoder.answer_udp hreorder hp, handleMessage_emptied]
    exact bare_handleMessage (openMessage_inner hxid htransport) none .rdma payload
  refine ⟨?_, ?_, ?_⟩
  · intro fragments hnonempty hflatten hshort hfits hempty
    have hsendable : Sendable d.settings.maxRecord fragments := by
      refine ⟨⟨hnonempty, fun fragment hfragment => ?_⟩, hflatten ▸ hfits⟩
      have hle := (List.sublist_flatten_of_mem hfragment).length_le
      rw [hflatten] at hle
      exact Nat.lt_of_le_of_lt hle hshort
    have htcp := Decoder.answer_tcp (p := p.via .tcp (Rpc.frame fragments)) hreorder rfl hsendable
      hempty rfl
    rw [htcp, hflatten, Decoder.answer_udp hreorder hp]
    exact bare_handleMessage rfl none .tcp _
  · intro credit
    obtain ⟨header, htransport, h⟩ := Rdma.reassemble_inline d.source xid credit
      d.settings.strictEnums p.payload
    exact hrdma htransport h
  · intro credit segments rest hresolve
    constructor
    · intro hsegments
      obtain ⟨header, htransport, h⟩ := Rdma.reassemble_ofCall xid credit d.settings.strictEnums
        hsegments hresolve rest
      exact hrdma htransport h
    · intro hsegments
      obtain ⟨header, htransport, h⟩ := Rdma.reassemble_ofReply xid credit d.settings.strictEnums
        hsegments hresolve rest
      exact hrdma htransport h

/-- A call without arguments, in two fragments, behind a header, in a read chunk of two segments,
and in a reply chunk, although it is no reply. -/
theorem transports_agree_null_call :
    let call := [7, 0, 2, 100003, 3, 0, 0, 0, 0, 0].flatMap Bytes.word
    let source : Rdma.ChunkSource := fun _ offset length =>
      some ((call.drop offset.toNat).take length.toNat)
    let d := Decoder.new {} source
    let p : Packet := ⟨⟨1, none⟩, default, ⟨.v4 1, 2049⟩, .udp, call⟩
    let segments : List Rdma.Segment := [⟨5, 4, 0⟩, ⟨6, 36, 4⟩]
    (d.answer p).2.map Event.name = ["message"] ∧ (d.answer p).1.matcher.length = 1 ∧
      bareAnswer (d.answer (p.via .tcp (Rpc.frame [call.take 5, call.drop 5]))) =
        bareAnswer (d.answer p) ∧
      bareAnswer (d.answer (p.via .rdma (Rdma.headerOctets 7 32 true {} ++ call))) =
        bareAnswer (d.answer p) ∧
      bareAnswer (d.answer (p.via .rdma
        (Rdma.headerOctets 7 32 false (.ofCall segments) ++ [255]))) = bareAnswer (d.answer p) ∧
      bareAnswer (d.answer (p.via .rdma
        (Rdma.headerOctets 7 32 false (.ofReply segments) ++ []))) = bareAnswer (d.answer p) := by
  intro call source d p segments
  obtain ⟨htcp, hinline, haway⟩ := transports_agree d rfl p rfl 7 fun _ => by decide
  have hresolve : Rdma.resolve source segments = some call := by decide
  obtain ⟨hcall, -⟩ := haway 32 segments [255] hresolve
  obtain ⟨-, hreply⟩ := haway 32 segments [] hresolve
  have hframed :=
    htcp [call.take 5, call.drop 5] (by decide) (by decide) (by decide) (by decide) rfl
  exact ⟨by decide +kernel, by decide +kernel, hframed, hinline 32, hcall (by decide),
    hreply (by decide)⟩

end NfsWire
