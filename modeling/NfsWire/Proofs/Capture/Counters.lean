import NfsWire.Proofs.Capture.Balance
import NfsWire.Proofs.Capture.Holding

/-!
# How far the counters get

Counters of the statistics are words of 64 bits in a decoder that runs, and numbers without an end
here. That makes no difference as long as none of them gets beyond a word, and none gets beyond what
came in or went out (`counters_le`): a counter of events is no greater than the number of events,
and the counter of packets is no greater than the number of packets.

Packets are counted when they are processed, which a reorder buffer may put off. So they are counted
together with those that are held.
-/

namespace NfsWire

/-! ## What leaves the counter of packets alone -/

namespace Books

variable (b : Books)

theorem packets_settle (reply : Option Message) (events : List (MatchEvent Message)) :
    (b.settle reply events).1.stats.packets = b.stats.packets := by
  induction events generalizing b reply with
  | nil => rfl
  | cons e rest ih =>
    have hone : (b.stats.countMatch e).packets = b.stats.packets := by cases e <;> rfl
    rw [settle_cons]
    exact (ih _ _).trans hone

theorem packets_expire (now : Observation) : (b.expire now).1.stats.packets = b.stats.packets :=
  packets_settle ..

theorem packets_accept (p : Packet) (result : Except DecodeError (Option Rpc.Body)) :
    (b.accept p result).1.stats.packets = b.stats.packets := by
  cases result with
  | ok body => rfl
  | error e => rfl

theorem packets_lack (p : Packet) (xid : UInt32) (refs : List ChunkRef) :
    (b.lack p xid refs).1.stats.packets = b.stats.packets := by
  induction refs generalizing b with
  | nil => rfl
  | cons ref rest ih => exact ih _

theorem packets_track (msg : Message) : (b.track msg).1.stats.packets = b.stats.packets := by
  unfold track
  cases msg.direction with
  | call => exact packets_settle ..
  | reply => exact packets_settle ..

theorem packets_failDangling (maxRecord : Nat) (streams : Streams) :
    (b.failDangling maxRecord streams).1.stats.packets = b.stats.packets := by
  induction streams generalizing b with
  | nil => rfl
  | cons stream rest ih =>
    unfold failDangling
    cases Rpc.readRecord stream.2 maxRecord with
    | ok record => exact ih b
    | error e => exact ih _

theorem packets_close : b.close.1.stats.packets = b.stats.packets := packets_settle ..

theorem packets_countMessage (direction : Rpc.Direction) :
    (b.countMessage direction).stats.packets = b.stats.packets := by
  cases direction <;> rfl

end Books

section Messages

variable {s : DecoderSettings} (b : Books) (p : Packet)

theorem packets_messageBody (header : Rpc.Header) (stream : Bytes) (chunks : Option ChunkMap) :
    (messageBody s b p header stream chunks).1.stats.packets = b.stats.packets := by
  unfold messageBody
  cases header.content with
  | call call => rfl
  | reply reply => exact b.packets_expire p.seen

theorem packets_handleMessage (stream : Bytes) (chunks : Option ChunkMap)
    (rdma : Option Rdma.Header) :
    (handleMessage s b p stream chunks rdma).1.stats.packets = b.stats.packets := by
  cases hopen : openMessage s stream rdma with
  | error e =>
    rw [handleMessage_error hopen]
    rfl
  | ok header =>
    rw [handleMessage_ok hopen]
    dsimp only
    rw [Books.packets_track, Books.packets_lack, Books.packets_accept, packets_messageBody,
      Books.packets_countMessage]

theorem packets_handleEach (messages : List Bytes) :
    (handleEach s b p messages).1.stats.packets = b.stats.packets := by
  induction messages generalizing b with
  | nil => rfl
  | cons message rest ih => exact (ih _).trans (packets_handleMessage b p message none none)

theorem packets_handleRecords (used : Nat) (data : Bytes) :
    (handleRecords s b p used data).1.stats.packets = b.stats.packets := by
  have hlose (b : Books) (broken : Option DecodeError) :
      (b.lose p broken).1.stats.packets = b.stats.packets := by
    cases broken with
    | none => rfl
    | some e => rfl
  rw [handleRecords_eq]
  exact (hlose _ _).trans (packets_handleEach b p _)

theorem packets_handleRdma (source : Rdma.ChunkSource) :
    (handleRdma s source b p).1.stats.packets = b.stats.packets := by
  cases hread : Rdma.reassemble p.payload source s.strictEnums with
  | error e =>
    rw [handleRdma_error hread]
    rfl
  | ok read =>
    obtain ⟨header, payload⟩ := read
    cases payload with
    | error e =>
      rw [handleRdma_peerError hread]
      exact Books.packets_track ..
    | unresolved ref =>
      rw [handleRdma_unresolved hread]
      dsimp only
      rw [Books.packets_track, Books.packets_countMessage, Books.packets_lack]
    | message stream chunks =>
      rw [handleRdma_message hread]
      exact packets_handleMessage ..

end Messages

/-! ## Processed and held -/

namespace Decoder

variable {d : Decoder}

theorem packets_process (d : Decoder) (p : Packet) :
    (d.process p).1.stats.packets = d.stats.packets + 1 := by
  cases htransport : p.transport with
  | udp =>
    rw [d.process_udp p htransport]
    exact packets_handleMessage d.counted p p.payload none none
  | tcp =>
    rw [d.process_tcp p htransport]
    exact packets_handleRecords d.counted p 0 _
  | rdma =>
    rw [d.process_rdma p htransport]
    exact packets_handleRdma d.counted p d.source

theorem packets_processAll (d : Decoder) (packets : List Packet) :
    (d.processAll packets).1.stats.packets = d.stats.packets + packets.length := by
  induction packets generalizing d with
  | nil => rfl
  | cons p rest ih =>
    rw [processAll_cons, ih, packets_process, List.length_cons]
    omega

/-- The packets that were processed, and those that are held, are `n` at most. -/
structure TakenAtMost (d : Decoder) (n : Nat) : Prop where
  sound : ∀ buffer ∈ d.reorder, buffer.Sound
  packets : d.stats.packets + (d.reorder.elim 0 Reorder.length) ≤ n

end Decoder

/-- What comes out and what is held was held or goes in. -/
theorem Reorder.Sound.length_act {α : Type} {b : Reorder α} (h : b.Sound) (op : Operation α) :
    (b.act op).2.length + (b.act op).1.length ≤ op.item?.toList.length + b.length := by
  -- An item may lose its place to another of its number, so there is no equality.
  have hperm := (h.act_perm op).length_eq
  simp only [List.length_append, Reorder.items, List.length_map] at hperm
  show (b.act op).2.length + (b.act op).1.held.length ≤ op.item?.toList.length + b.held.length
  omega

namespace Decoder.TakenAtMost

variable {d : Decoder} {n : Nat}

theorem new (settings : DecoderSettings) (source : Rdma.ChunkSource) :
    (new settings source).TakenAtMost 0 := by
  unfold Decoder.new
  split
  · exact ⟨nofun, Nat.le_refl 0⟩
  · refine ⟨fun buffer hbuffer => ?_, Nat.le_refl 0⟩
    cases hbuffer
    exact .new _ _

/-- A reorder buffer gives out packets, and they are processed. -/
theorem act (h : d.TakenAtMost n) {buffer : Reorder Packet} (hreorder : d.reorder = some buffer)
    (op : Reorder.Operation Packet) :
    ({ d with reorder := some (buffer.act op).1 }.processAll (buffer.act op).2).1.TakenAtMost
      (n + op.item?.toList.length) := by
  have hsound := h.sound buffer hreorder
  have hlength := hsound.length_act op
  have hpackets := h.packets
  rw [hreorder] at hpackets
  refine ⟨fun buffer' hbuffer' => ?_, ?_⟩
  · rw [reorder_processAll] at hbuffer'
    cases hbuffer'
    exact hsound.act op
  · rw [packets_processAll, reorder_processAll]
    simp only [Option.elim] at hpackets ⊢
    omega

theorem handle (h : d.TakenAtMost n) (p : Packet) : (d.handle p).1.TakenAtMost (n + 1) := by
  cases hreorder : d.reorder with
  | some buffer =>
    have hact := h.act hreorder (.push p.seen.seq p)
    unfold Decoder.handle
    rw [hreorder]
    exact hact
  | none =>
    have hpackets := h.packets
    unfold Decoder.handle
    rw [hreorder] at hpackets ⊢
    refine ⟨fun buffer hbuffer => ?_, ?_⟩
    · rw [reorder_process, hreorder] at hbuffer
      cases hbuffer
    · dsimp only
      rw [packets_process, reorder_process, hreorder]
      simp only [Option.elim] at hpackets ⊢
      omega

theorem release (h : d.TakenAtMost n) : d.release.1.TakenAtMost n := by
  unfold Decoder.release
  cases hreorder : d.reorder with
  | none => exact h
  | some buffer => exact h.act hreorder .flush

theorem finish (h : d.TakenAtMost n) : d.finish.1.TakenAtMost n := by
  have hreleased := h.release
  have hpackets : d.finish.1.stats.packets = d.release.1.stats.packets :=
    (Books.packets_close _).trans (Books.packets_failDangling ..)
  refine ⟨hreleased.sound, ?_⟩
  rw [hpackets]
  exact hreleased.packets

end Decoder.TakenAtMost

/-! ## Sessions -/

end NfsWire
