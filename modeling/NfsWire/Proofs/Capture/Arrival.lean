import NfsWire.Proofs.Capture.Records
import NfsWire.Proofs.Capture.Reordering
import NfsWire.Proofs.Capture.Session

/-!
# Putting packets in order cannot be seen

A decoder with a buffer processes what the buffer releases, and nothing else that it does looks at
the buffer or at the settings for it. So beside each such decoder there is one that handles packets
as they come, `Decoder.direct`, and the two go together:

1. a packet that is taken in with the buffer is, without it, the packets that the buffer releases
   then (`handle_direct`);
2. the end of the capture is the packets that are still held and then the end (`finish_direct`);
3. all that is released, and then what is held, are the packets in order, if they did not come too
   late (`Reorder.drain_eq_of_ascending`).

When a packet is released does not matter, since between two packets nothing happens.
-/

namespace NfsWire

/-! ## Settings that are not looked at -/

/-- The same settings, but packets are handled as they come. -/
def DecoderSettings.direct (s : DecoderSettings) : DecoderSettings := { s with reorderWindow := 0 }

section Settings

variable (s : DecoderSettings) (b : Books) (p : Packet)

theorem handleMessage_direct (stream : Bytes) (chunks : Option ChunkMap)
    (rdma : Option Rdma.Header) :
    handleMessage s.direct b p stream chunks rdma = handleMessage s b p stream chunks rdma := rfl

theorem handleEach_direct (messages : List Bytes) :
    handleEach s.direct b p messages = handleEach s b p messages := by
  induction messages generalizing b with
  | nil => rfl
  | cons message rest ih => simp only [handleEach, handleMessage_direct, ih]

theorem handleRecords_direct (used : Nat) (data : Bytes) :
    handleRecords s.direct b p used data = handleRecords s b p used data := by
  rw [handleRecords_eq, handleRecords_eq]
  simp only [handleEach_direct]
  rfl

end Settings

/-! ## With and without the buffer -/

namespace Decoder

variable {d : Decoder} {b : Reorder Packet}

/-- The same decoder without its buffer. -/
def direct (d : Decoder) : Decoder := { d with settings := d.settings.direct, reorder := none }

theorem direct_process (d : Decoder) (p : Packet) :
    d.direct.process p = ((d.process p).1.direct, (d.process p).2) := by
  cases h : p.transport with
  | udp =>
    rw [process_udp _ _ h, process_udp _ _ h]
    rfl
  | tcp =>
    rw [process_tcp _ _ h, process_tcp _ _ h]
    simp only [direct, handleRecords_direct]
    rfl
  | rdma =>
    rw [process_rdma _ _ h, process_rdma _ _ h]
    rfl

theorem direct_processAll (d : Decoder) (packets : List Packet) :
    d.direct.processAll packets = ((d.processAll packets).1.direct, (d.processAll packets).2) := by
  induction packets generalizing d with
  | nil => rfl
  | cons p rest ih => rw [processAll_cons, processAll_cons, direct_process, ih]

theorem processAll_append (d : Decoder) (packets later : List Packet) :
    d.processAll (packets ++ later) =
      (((d.processAll packets).1.processAll later).1,
        (d.processAll packets).2 ++ ((d.processAll packets).1.processAll later).2) := by
  induction packets generalizing d with
  | nil => rfl
  | cons p rest ih => rw [List.cons_append, processAll_cons, ih, processAll_cons, List.append_assoc]

/-- With the buffer, a packet is what the buffer releases then. -/
theorem handle_direct (h : d.reorder = some b) (p : Packet) :
    (d.handle p).1.reorder = some (b.push p.seen.seq p).1 ∧
      d.direct.processAll (b.push p.seen.seq p).2 = ((d.handle p).1.direct, (d.handle p).2) := by
  rw [handle, h]
  exact ⟨reorder_processAll .., direct_processAll { d with reorder := some _ } _⟩

/-- With the buffer, the end of the capture is what the buffer holds, and the end. -/
theorem finish_direct (h : d.reorder = some b) :
    let last := d.direct.processAll b.flush.2
    d.finish.1.toBooks = last.1.finish.1.toBooks ∧ d.finish.2 = last.2 ++ last.1.finish.2 := by
  have hrelease : d.release = ({ d with reorder := some b.flush.1 }).processAll b.flush.2 := by
    rw [release, h]
  have hlast : d.direct.processAll b.flush.2 = (d.release.1.direct, d.release.2) := by
    rw [hrelease]
    exact direct_processAll { d with reorder := some b.flush.1 } _
  intro last
  rw [show last = _ from hlast]
  refine ⟨rfl, ?_⟩
  show d.release.2 ++ _ ++ _ = d.release.2 ++ ([] ++ _ ++ _)
  rw [List.nil_append, List.append_assoc]
  rfl

end Decoder

/-! ## What is released -/

namespace Reorder

variable {α : Type} {first : Option Nat} {window : Nat} {items ordered : List (Nat × α)}

/-- All that goes in comes out in order. -/
theorem drain_eq_of_ascending (hnear : NearlyOrdered (max window 1) items)
    (hfirst : ∀ n ∈ first.or (items.head?.map (·.1)), ∀ p ∈ items, n ≤ p.1)
    (hordered : Ascending ordered) (hperm : ordered.Perm items) :
    (new first window).drain items = ordered.map (·.2) := by
  cases items with
  | nil =>
    rw [List.Perm.eq_nil hperm]
    rfl
  | cons p rest =>
    -- A buffer that starts anywhere starts at the first item.
    have hsame : (new first window).drain (p :: rest) =
        (new (some (first.getD p.1)) window).drain (p :: rest) := by
      cases first with
      | some n => rfl
      | none => rfl
    have hstart : ∀ q ∈ p :: rest, first.getD p.1 ≤ q.1 := by
      refine hfirst _ ?_
      cases first with
      | some n => rfl
      | none => rfl
    obtain ⟨gone, stop, hin, hout⟩ :=
      (InOrder.new (first.getD p.1) window).pushAll hnear hstart rfl (List.nil_append _)
    have hsorted := hin.ascending.eq_of_perm hordered (hin.perm.trans hperm.symm)
    rw [hsame, drain, hout, flush, ← hsorted, List.nil_append, List.map_append]

end Reorder

/-! ## Whole sessions -/

namespace Session

variable {s : Session} {b : Reorder Packet}

/-- Take in packets in turn. -/
def takeIn (s : Session) (packets : List Packet) : Session :=
  (packets.map .packet).foldl next s

/-- Without a buffer, the packets are processed as they come. -/
theorem takeIn_none (h : s.decoder.reorder = none) (packets : List Packet) :
    (s.takeIn packets).decoder = (s.decoder.processAll packets).1 ∧
      (s.takeIn packets).told = s.told ++ (s.decoder.processAll packets).2 := by
  induction packets generalizing s with
  | nil => exact ⟨rfl, (List.append_nil _).symm⟩
  | cons p rest ih =>
    have hhandle : s.decoder.handle p = s.decoder.process p := by
      rw [Decoder.handle, h]
    have hreorder : (s.next (.packet p)).decoder.reorder = none := by
      show (s.decoder.handle p).1.reorder = none
      rw [hhandle, Decoder.reorder_process, h]
    obtain ⟨hdecoder, htold⟩ := ih hreorder
    have hnext : (s.next (.packet p)).decoder = (s.decoder.process p).1 :=
      congrArg Prod.fst hhandle
    have hnow : (s.next (.packet p)).told = s.told ++ (s.decoder.process p).2 := by
      rw [← hhandle]
      rfl
    rw [hnext] at hdecoder htold
    rw [hnow, List.append_assoc] at htold
    exact ⟨hdecoder, htold⟩

/-- With a buffer, what it releases is processed. -/
theorem takeIn_some (h : s.decoder.reorder = some b) (packets : List Packet) :
    let pushed := b.pushAll (packets.map fun p => (p.seen.seq, p))
    (s.takeIn packets).decoder.reorder = some pushed.1 ∧
      (s.takeIn packets).decoder.direct = (s.decoder.direct.processAll pushed.2).1 ∧
      (s.takeIn packets).told = s.told ++ (s.decoder.direct.processAll pushed.2).2 := by
  induction packets generalizing s b with
  | nil => exact ⟨h, rfl, (List.append_nil _).symm⟩
  | cons p rest ih =>
    obtain ⟨hreorder, hdirect⟩ := Decoder.handle_direct h p
    have hreorder : (s.next (.packet p)).decoder.reorder = some (b.push p.seen.seq p).1 := hreorder
    have hdirect : s.decoder.direct.processAll (b.push p.seen.seq p).2 =
        ((s.next (.packet p)).decoder.direct, (s.decoder.handle p).2) := hdirect
    obtain ⟨hlater, hdecoder, htold⟩ := ih hreorder
    refine ⟨hlater, ?_, ?_⟩
    · rw [List.map_cons, Reorder.pushAll, Decoder.processAll_append, hdirect]
      exact hdecoder
    · rw [List.map_cons, Reorder.pushAll, Decoder.processAll_append, hdirect, ← List.append_assoc]
      exact htold

/-- Take in packets in turn, and end the capture. -/
def takeAll (s : Session) (packets : List Packet) : Session := (s.takeIn packets).next .finish

theorem run_eq_takeAll (settings : DecoderSettings) (source : Rdma.ChunkSource)
    (packets : List Packet) :
    run settings source (packets.map .packet ++ [.finish]) =
      (new settings source).takeAll packets :=
  List.foldl_append

/-- The end of a capture, when all of its packets were processed one after the other. -/
structure Ends (s : Session) (d : Decoder) (packets : List Packet) : Prop where
  told : s.told = (d.processAll packets).2 ++ (d.processAll packets).1.finish.2
  books : s.decoder.toBooks = (d.processAll packets).1.finish.1.toBooks

theorem ends_none (htold : s.told = []) (h : s.decoder.reorder = none) (packets : List Packet) :
    (s.takeAll packets).Ends s.decoder packets := by
  obtain ⟨hdecoder, hnow⟩ := s.takeIn_none h packets
  rw [htold, List.nil_append] at hnow
  constructor
  · show (s.takeIn packets).told ++ (s.takeIn packets).decoder.finish.2 = _
    rw [hnow, hdecoder]
  · show (s.takeIn packets).decoder.finish.1.toBooks = _
    rw [hdecoder]

/-- With a buffer, the packets are those that it releases and then holds. -/
theorem ends_some (htold : s.told = []) (h : s.decoder.reorder = some b) (packets : List Packet) :
    (s.takeAll packets).Ends s.decoder.direct
      (b.drain (packets.map fun p => (p.seen.seq, p))) := by
  obtain ⟨hheld, hdecoder, hnow⟩ := s.takeIn_some h packets
  obtain ⟨hbooks, hfinish⟩ := Decoder.finish_direct hheld
  rw [htold, List.nil_append] at hnow
  rw [hdecoder] at hbooks hfinish
  constructor
  · show (s.takeIn packets).told ++ (s.takeIn packets).decoder.finish.2 = _
    rw [hnow, hfinish, Reorder.drain, Decoder.processAll_append, List.append_assoc]
  · show (s.takeIn packets).decoder.finish.1.toBooks = _
    rw [hbooks, Reorder.drain, Decoder.processAll_append]

end Session

/-- What comes out of the buffer are the packets in order. -/
theorem drain_packets {first : Option Nat} {window : Nat} {packets ordered : List Packet}
    (hwindow : 1 ≤ window)
    (hnear : Reorder.NearlyOrdered window (packets.map fun p => (p.seen.seq, p)))
    (hfirst : ∀ n ∈ first.or (packets.head?.map (·.seen.seq)), ∀ p ∈ packets, n ≤ p.seen.seq)
    (hordered : ordered.Pairwise (·.seen.seq < ·.seen.seq)) (hperm : ordered.Perm packets) :
    (Reorder.new first window).drain (packets.map fun p => (p.seen.seq, p)) = ordered := by
  have hfrom : ∀ n ∈ first.or ((packets.map fun p => (p.seen.seq, p)).head?.map (·.1)),
      ∀ p ∈ packets.map fun p => (p.seen.seq, p), n ≤ p.1 := by
    rw [List.head?_map, Option.map_map]
    exact fun n hn => List.forall_mem_map.mpr (hfirst n hn)
  have hall : (ordered.map fun p => (p.seen.seq, p)).map (·.2) = ordered := by
    rw [List.map_map]
    exact List.map_id _
  rw [Reorder.drain_eq_of_ascending (by rwa [Nat.max_eq_left hwindow]) hfrom
    (List.pairwise_map.mpr hordered) (hperm.map _), hall]

/-- **Putting packets in order cannot be seen.** If no packet comes after more than a window of
packets that belong behind it, and the buffer does not start behind any of them, then the packets as
they come and the packets in order, without a buffer, are told as the same events, and the
decoders end with the same books. -/
theorem reordering_invisible {settings : DecoderSettings} (source : Rdma.ChunkSource)
    {packets ordered : List Packet} (hwindow : 1 ≤ settings.reorderWindow)
    (hnear : Reorder.NearlyOrdered settings.reorderWindow
      (packets.map fun p => (p.seen.seq, p)))
    (hfirst : ∀ n ∈ settings.reorderFirst.or (packets.head?.map (·.seen.seq)),
      ∀ p ∈ packets, n ≤ p.seen.seq)
    (hordered : ordered.Pairwise (·.seen.seq < ·.seen.seq)) (hperm : ordered.Perm packets) :
    let buffered := Session.run settings source (packets.map .packet ++ [.finish])
    let plain := Session.run { settings with reorderWindow := 0 } source
      (ordered.map .packet ++ [.finish])
    buffered.told = plain.told ∧ buffered.decoder.toBooks = plain.decoder.toBooks := by
  have hbuffer : (Session.new settings source).decoder.reorder =
      some (.new settings.reorderFirst settings.reorderWindow) := if_neg (Nat.ne_of_gt hwindow)
  have hbuffered := Session.ends_some rfl hbuffer packets
  rw [drain_packets hwindow hnear hfirst hordered hperm] at hbuffered
  have hplain := Session.ends_none (s := .new settings.direct source) rfl rfl ordered
  intro buffered plain
  rw [show buffered = _ from Session.run_eq_takeAll ..,
    show plain = _ from Session.run_eq_takeAll ..]
  exact ⟨hbuffered.told.trans hplain.told.symm, hbuffered.books.trans hplain.books.symm⟩

/-- The second half of a record comes before the first, and behind both a number is missing. -/
theorem reordering_invisible_halves :
    let piece (seq : Nat) (payload : Bytes) : Packet :=
      ⟨⟨seq, none⟩, default, default, .tcp, payload⟩
    let settings : DecoderSettings := { reorderWindow := 2, reorderFirst := some 1 }
    let source : Rdma.ChunkSource := fun _ _ _ => none
    (Session.run settings source
        ([piece 2 [0, 4, 1, 2, 3, 4], piece 1 [0x80, 0], piece 9 [0x80]].map .packet ++
          [.finish])).told =
      (Session.run { settings with reorderWindow := 0 } source
        ([piece 1 [0x80, 0], piece 2 [0, 4, 1, 2, 3, 4], piece 9 [0x80]].map .packet ++
          [.finish])).told := by
  intro piece settings source
  exact (reordering_invisible source (by decide) ⟨by decide, by decide⟩ (by decide) (by decide)
    (.swap ..)).1

end NfsWire
