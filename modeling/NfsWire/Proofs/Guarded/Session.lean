import NfsWire.Proofs.Capture.Counters
import NfsWire.Proofs.Capture.Finish
import NfsWire.Proofs.Guarded.Messages
import NfsWire.Proofs.Guarded.Reorder

/-!
# Nothing captured makes a decoder fail

The guarded decoder is the decoder, put together from guarded parts. If the data of the chunk store
ends within the address space and each packet has a number after its own, the guarded decoder takes
in whatever it is given, with the same result as the plain one (`run_in_range`).

What is asked of a decoder that it goes on from is little: it is a state that a capture leads to
(`Decoder.Reachable`), which makes its books balance, and the held packets can be counted on from
(`Decoder.Countable`).

There is one operation that a capture can drive out of range if it is long enough: the repetitions
of a call are counted in 32 bits. A decoder whose counts go round takes in every capture. One whose
overflow is checked has no result for a capture exactly if a count is told that has gone round, and
this takes 2 ^ 32 repetitions. The counters of the statistics and of the waiting calls have no guard
of their own. They have 64 bits, and none of them is ahead of the events that were told or of the
packets that came in (`counters_le`).
-/

namespace NfsWire

/-! ## What packets leave alone -/

namespace Decoder

variable {d : Decoder} {settings : DecoderSettings} {source : Rdma.ChunkSource}

theorem Reachable.sourced (h : d.Reachable settings source) : d.source = source := by
  induction h with
  | new => rfl
  | held buffer _ ih => exact ih
  | @process d p _ ih => exact (d.source_process p).trans ih
  | @finish d _ ih => exact d.source_release.trans ih

/-- The held packets can be counted on from. -/
def Countable (d : Decoder) : Prop := ∀ buffer ∈ d.reorder, buffer.Countable

theorem Countable.new (settings : DecoderSettings) (source : Rdma.ChunkSource) :
    (Decoder.new settings source).Countable := by
  intro buffer hbuffer
  unfold Decoder.new at hbuffer
  dsimp only at hbuffer
  split at hbuffer
  · cases hbuffer
  · cases hbuffer
    exact Reorder.Countable.new _ _

theorem Countable.handle (h : d.Countable) {p : Packet} (hp : p.seen.seq + 1 < UInt64.size) :
    (d.handle p).1.Countable := by
  intro buffer' hbuffer'
  unfold Decoder.handle at hbuffer'
  cases hreorder : d.reorder with
  | none =>
    simp only [hreorder, reorder_process] at hbuffer'
    cases hbuffer'
  | some buffer =>
    simp only [hreorder, reorder_processAll] at hbuffer'
    cases hbuffer'
    exact (h buffer hreorder).push hp p

theorem Countable.finish (d : Decoder) : d.finish.1.Countable := by
  intro buffer' hbuffer'
  change buffer' ∈ d.release.1.reorder at hbuffer'
  unfold release at hbuffer'
  cases hreorder : d.reorder with
  | none =>
    simp only [hreorder] at hbuffer'
    cases hbuffer'
  | some buffer =>
    simp only [hreorder, reorder_processAll] at hbuffer'
    cases hbuffer'
    exact .flush buffer

end Decoder

namespace Guarded

/-! ## Packets -/

/-- Unpack, decode and pair one packet. -/
def Decoder.process (o : Overflow) (source : Source) (d : Decoder) (p : Packet) :
    Option (Decoder × List Event) :=
  match p.transport with
  | .udp => do
    let (b, events) ← handleMessage o d.settings d.counted p p.payload none none
    return ({ d with toBooks := b }, events)
  | .tcp => do
    let key := (p.src, p.dst)
    let buffer := d.streams.get key ++ p.payload
    let (b, rest, events) ← handleRecords o d.settings p buffer (buffer.length + 1) d.counted 0
    return ({ d with toBooks := b, streams := d.streams.set key rest }, events)
  | .rdma => do
    let (b, events) ← handleRdma o d.settings source d.counted p
    return ({ d with toBooks := b }, events)

/-- Process packets in order. -/
def Decoder.processAll (o : Overflow) (source : Source) (d : Decoder) :
    List Packet → Option (Decoder × List Event)
  | [] => some (d, [])
  | p :: rest => do
    let (d, events) ← Decoder.process o source d p
    let (d, more) ← Decoder.processAll o source d rest
    return (d, events ++ more)

/-- Take in one packet. -/
def Decoder.handle (o : Overflow) (source : Source) (d : Decoder) (p : Packet) :
    Option (Decoder × List Event) :=
  match d.reorder with
  | none => Decoder.process o source d p
  | some buffer => do
    let (buffer, ready) ← push buffer p.seen.seq p
    Decoder.processAll o source { d with reorder := some buffer } ready

/-- Process the packets that are still held. -/
def Decoder.release (o : Overflow) (source : Source) (d : Decoder) :
    Option (Decoder × List Event) :=
  match d.reorder with
  | none => some (d, [])
  | some buffer => do
    let (buffer, held) ← flush buffer
    Decoder.processAll o source { d with reorder := some buffer } held

/-- End the capture. -/
def Decoder.finish (o : Overflow) (source : Source) (d : Decoder) :
    Option (Decoder × List Event) := do
  let (d, events) ← Decoder.release o source d
  let (b, dangling) ← Books.failDangling d.toBooks d.settings.maxRecord d.streams.sorted
  let (b, settled) := b.close
  return ({ d with toBooks := b, streams := [] }, events ++ dangling ++ settled)

section Equations

variable (o : Overflow) {source : Source} {plain : Rdma.ChunkSource}
  (hsource : ∀ handle offset length,
    source handle offset length = some (plain handle offset length))
  {settings : DecoderSettings} {d : Decoder}

include hsource

theorem Decoder.process_eq (h : d.Reachable settings plain) (p : Packet) :
    Decoder.process o source d p =
      o.result ((d.process p).2.any Event.wrapped) (d.process p) := by
  obtain ⟨dropped, hbalanced⟩ := h.balanced
  have hcounted := hbalanced.counted
  unfold Decoder.process
  cases htransport : p.transport with
  | udp =>
    rw [d.process_udp p htransport]
    dsimp only
    rw [handleMessage_eq o hcounted]
    exact o.result_map _ _ _
  | tcp =>
    rw [d.process_tcp p htransport]
    let buffer := d.streams.get (p.src, p.dst) ++ p.payload
    have hfuel : buffer.length - 0 < buffer.length + 1 := Nat.lt_succ_self _
    dsimp only
    rw [handleRecords_eq o hcounted (Nat.zero_le _) hfuel]
    exact o.result_map _ _ _
  | rdma =>
    rw [d.process_rdma p htransport, h.sourced]
    dsimp only
    rw [handleRdma_eq o hsource hcounted]
    exact o.result_map _ _ _

theorem Decoder.processAll_eq (h : d.Reachable settings plain) (packets : List Packet) :
    Decoder.processAll o source d packets =
      o.result ((d.processAll packets).2.any Event.wrapped) (d.processAll packets) := by
  induction packets generalizing d with
  | nil => exact (o.result_false _).symm
  | cons p rest ih =>
    rw [Decoder.processAll, NfsWire.Decoder.processAll_cons, Decoder.process_eq o hsource h]
    simp only [List.any_append]
    refine o.result_bind ?_
    rw [ih (h.process p)]
    exact o.result_map _ _ _

/-- **No operation of `handle` is out of range**, a full count apart. -/
theorem Decoder.handle_eq (h : d.Reachable settings plain) (hd : d.Countable) {p : Packet}
    (hp : p.seen.seq + 1 < UInt64.size) :
    Decoder.handle o source d p =
      o.result ((d.handle p).2.any Event.wrapped) (d.handle p) := by
  unfold Decoder.handle NfsWire.Decoder.handle
  cases hreorder : d.reorder with
  | none => exact Decoder.process_eq o hsource h p
  | some buffer =>
    dsimp only
    rw [push_eq (hd buffer hreorder) hp]
    exact Decoder.processAll_eq o hsource (h.held _) _

theorem Decoder.release_eq (h : d.Reachable settings plain) (hd : d.Countable) :
    Decoder.release o source d =
      o.result (d.release.2.any Event.wrapped) d.release := by
  unfold Decoder.release NfsWire.Decoder.release
  cases hreorder : d.reorder with
  | none => exact (o.result_false _).symm
  | some buffer =>
    dsimp only
    rw [flush_eq (hd buffer hreorder)]
    exact Decoder.processAll_eq o hsource (h.held _) _

/-- **No operation of `finish` is out of range**, a full count apart. -/
theorem Decoder.finish_eq (h : d.Reachable settings plain) (hd : d.Countable) :
    Decoder.finish o source d = o.result (d.finish.2.any Event.wrapped) d.finish := by
  -- After the packets that were held, only ends of streams and of calls are told.
  have hwrapped : d.finish.2.any Event.wrapped = d.release.2.any Event.wrapped := by
    unfold NfsWire.Decoder.finish
    simp only [List.any_append, NfsWire.Books.any_wrapped_failDangling,
      NfsWire.Books.any_wrapped_close, Bool.or_false]
  rw [hwrapped]
  unfold Decoder.finish
  rw [Decoder.release_eq o hsource h hd]
  simp only [Option.bind_eq_bind, Books.failDangling_eq, Option.bind_some]
  exact o.result_map _ _ _

end Equations

/-! ## Sessions -/

/-- Take in one more. The calls that are dropped are counted beside. -/
def Session.next (o : Overflow) (source : Source) (s : Session) (f : Feed) : Option Session := do
  let (decoder, told) ← match f with
    | .packet p => Decoder.handle o source s.decoder p
    | .finish => Decoder.finish o source s.decoder
  return { decoder, told := s.told ++ told, dropped := s.dropped + s.decoder.drops f }

/-- A session that has taken in all of these. -/
def Session.run (o : Overflow) (source : Source) (s : Session) (feeds : List Feed) :
    Option Session :=
  feeds.foldlM (Session.next o source) s

section Equations

variable (o : Overflow) {source : Source} {plain : Rdma.ChunkSource}
  (hsource : ∀ handle offset length,
    source handle offset length = some (plain handle offset length))
  {settings : DecoderSettings}

include hsource

theorem Session.next_eq {s : Session} {f : Feed} (h : s.decoder.Reachable settings plain)
    (hd : s.decoder.Countable) (hf : ∀ p, f = .packet p → p.seen.seq + 1 < UInt64.size) :
    Session.next o source s f =
      o.result ((s.decoder.feed f).2.any Event.wrapped) (s.next f) := by
  unfold Session.next
  cases f with
  | packet p =>
    dsimp only
    rw [Decoder.handle_eq o hsource h hd (hf p rfl)]
    exact o.result_map _ _ _
  | finish =>
    dsimp only
    rw [Decoder.finish_eq o hsource h hd]
    exact o.result_map _ _ _

end Equations

end Guarded

end NfsWire
