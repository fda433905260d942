import NfsWire.Proofs.Capture.Records
import NfsWire.Proofs.Capture.Session
import NfsWire.Proofs.Rpc.Framing

/-!
# Records are delivered as they arrive

A sender frames records, one after the other, and the network cuts what it sent into packets. What
a decoder has received of the stream is a number of whole records and the beginning of the next
one. The invariant is that the decoder has handled the whole ones and keeps that beginning, and
nothing else, for the stream (`Decoder.Follows`).

A packet of the stream adds to what is kept. The two together are again whole records and a
beginning (`unfinished_append`), and taking the records off leaves just the beginning
(`harvest_streamOf`). All other packets leave the stream alone.
-/

namespace NfsWire

open Rpc (frame)

/-! ## What has arrived of a stream -/

/-- A record that can be sent: its fragments fit their marks, and together the limit. -/
structure Sendable (max : Nat) (record : List Bytes) : Prop extends Rpc.Fragments record where
  fits : record.flatten.length ≤ max

/-- The octets of records that are sent one after the other. -/
def streamOf (sent : List (List Bytes)) : Bytes := sent.flatMap frame

/-- The records whose framing lies within the first `n` octets. -/
def arrived : (sent : List (List Bytes)) → (n : Nat) → List (List Bytes)
  | [], _ => []
  | record :: rest, n =>
    if (frame record).length ≤ n then record :: arrived rest (n - (frame record).length) else []

/-- What the first `n` octets have after the records that arrived. -/
def unfinished : (sent : List (List Bytes)) → (n : Nat) → Bytes
  | [], _ => []
  | record :: rest, n =>
    if (frame record).length ≤ n then unfinished rest (n - (frame record).length)
    else (frame record).take n

theorem streamOf_append (sent more : List (List Bytes)) :
    streamOf (sent ++ more) = streamOf sent ++ streamOf more :=
  List.flatMap_append

theorem take_streamOf (sent : List (List Bytes)) (n : Nat) :
    (streamOf sent).take n = streamOf (arrived sent n) ++ unfinished sent n := by
  induction sent generalizing n with
  | nil => simp [streamOf, arrived, unfinished]
  | cons record rest ih =>
    have hstream : streamOf (record :: rest) = frame record ++ streamOf rest := List.flatMap_cons
    rw [hstream, List.take_append, arrived, unfinished]
    by_cases hwhole : (frame record).length ≤ n
    · -- The record is whole, and the others share what is left of `n`.
      simp only [hwhole, if_true, List.take_of_length_le]
      rw [ih, ← List.append_assoc]
      rfl
    · have hnone : n - (frame record).length = 0 := by omega
      simp [hwhole, hnone, streamOf]

theorem arrived_mono (sent : List (List Bytes)) {n m : Nat} (h : n ≤ m) :
    arrived sent n <+: arrived sent m := by
  induction sent generalizing n m with
  | nil => exact List.prefix_refl _
  | cons record rest ih =>
    unfold arrived
    by_cases hwhole : (frame record).length ≤ n
    · have hwhole' : (frame record).length ≤ m := Nat.le_trans hwhole h
      simp only [hwhole, hwhole', if_true]
      exact (List.prefix_cons_inj record).mpr (ih (by omega))
    · simp only [hwhole, if_false]
      exact List.nil_prefix

theorem arrived_all {sent : List (List Bytes)} {n : Nat} (h : (streamOf sent).length ≤ n) :
    arrived sent n = sent := by
  induction sent generalizing n with
  | nil => rfl
  | cons record rest ih =>
    have hlength : (streamOf (record :: rest)).length =
        (frame record).length + (streamOf rest).length := List.length_append
    rw [arrived, if_pos (by omega), ih (by omega)]

theorem mem_of_mem_arrived {sent : List (List Bytes)} {n : Nat} {record : List Bytes}
    (h : record ∈ arrived sent n) : record ∈ sent := by
  have hall := arrived_all (Nat.le_max_right n (streamOf sent).length)
  rw [← hall]
  exact (arrived_mono sent (Nat.le_max_left ..)).subset h

/-- The beginning of a record, or nothing. -/
def Begins (max : Nat) (tail : Bytes) : Prop :=
  tail = [] ∨ ∃ record, Sendable max record ∧ tail <+: frame record ∧
    tail.length < (frame record).length

theorem begins_unfinished {max : Nat} {sent : List (List Bytes)}
    (hsent : ∀ record ∈ sent, Sendable max record) (n : Nat) : Begins max (unfinished sent n) := by
  induction sent generalizing n with
  | nil => exact .inl rfl
  | cons record rest ih =>
    unfold unfinished
    by_cases hwhole : (frame record).length ≤ n
    · simp only [hwhole, if_true]
      exact ih (fun r hr => hsent r (List.mem_cons_of_mem _ hr)) _
    · simp only [hwhole, if_false]
      refine .inr ⟨record, hsent record List.mem_cons_self, List.take_prefix .., ?_⟩
      rw [List.length_take]
      omega

/-- More octets complete records, and begin the next. -/
theorem unfinished_append {sent complete : List (List Bytes)} {received payload : Bytes}
    (hreceived : received ++ payload <+: streamOf sent)
    (hcomplete : arrived sent (received ++ payload).length =
      arrived sent received.length ++ complete) :
    unfinished sent received.length ++ payload =
      streamOf complete ++ unfinished sent (received ++ payload).length := by
  -- Both readings of the stream begin with the records that arrived before.
  have hbefore : received = streamOf (arrived sent received.length) ++
      unfinished sent received.length := by
    rw [← take_streamOf]
    exact List.prefix_iff_eq_take.mp ((List.prefix_append ..).trans hreceived)
  have hafter : received ++ payload = streamOf (arrived sent received.length) ++
      (streamOf complete ++ unfinished sent (received ++ payload).length) := by
    rw [← List.append_assoc, ← streamOf_append, ← hcomplete, ← take_streamOf]
    exact List.prefix_iff_eq_take.mp hreceived
  refine (List.append_right_inj (streamOf (arrived sent received.length))).mp ?_
  rw [← List.append_assoc, ← hbefore]
  exact hafter

/-! ## Taking records off a stream -/

/-- **What is taken off a stream is the records that were sent, and the beginning that is left is
kept.** -/
theorem harvest_streamOf {max : Nat} {complete : List (List Bytes)}
    (hcomplete : ∀ record ∈ complete, Sendable max record) {tail : Bytes}
    (htail : Begins max tail) (used : Nat) :
    harvest max used (streamOf complete ++ tail) = ⟨complete.map List.flatten, tail, none⟩ := by
  induction complete generalizing used with
  | nil =>
    rcases htail with rfl | ⟨record, hrecord, hpre, hcut⟩
    · exact harvest_nil max used
    · by_cases hnone : tail = []
      · subst hnone
        exact harvest_nil max used
      · -- Of a beginning that is not empty, reading asks for the rest.
        obtain ⟨e, hread, htruncated⟩ :=
          Rpc.readRecord_cut hrecord.toFragments hrecord.fits hpre hcut
        show harvest max used tail = _
        rw [harvest_error hnone hread, if_pos htruncated]
        rfl
  | cons record rest ih =>
    have hrecord := hcomplete record List.mem_cons_self
    have hstream : streamOf (record :: rest) ++ tail = frame record ++ (streamOf rest ++ tail) :=
      List.append_assoc ..
    rw [hstream, harvest_record (Rpc.readRecord_frame hrecord.toFragments hrecord.fits _),
      List.drop_left, ih fun r hr => hcomplete r (List.mem_cons_of_mem _ hr)]
    rfl

/-- What a payload completes is taken off, and no more. -/
theorem harvest_unfinished {max : Nat} {sent complete : List (List Bytes)}
    (hsent : ∀ record ∈ sent, Sendable max record) {before payload : Bytes}
    (hreceived : before ++ payload <+: streamOf sent)
    (hcomplete : arrived sent (before ++ payload).length =
      arrived sent before.length ++ complete) :
    harvest max 0 (unfinished sent before.length ++ payload) =
      ⟨complete.map List.flatten, unfinished sent (before ++ payload).length, none⟩ := by
  have hsendable : ∀ record ∈ complete, Sendable max record := by
    intro record hrecord
    refine hsent record (mem_of_mem_arrived (n := (before ++ payload).length) ?_)
    rw [hcomplete]
    exact List.mem_append_right _ hrecord
  rw [unfinished_append hreceived hcomplete]
  exact harvest_streamOf hsendable (begins_unfinished hsent _) 0

/-! ## What a decoder keeps of a stream -/

namespace Streams

/-- The entries of a stream. -/
def on (s : Streams) (key : StreamKey) : Streams := List.filter (·.1 == key) s

/-- The entry of a stream with these unused octets; there is none if there are none. -/
def entry (key : StreamKey) (data : Bytes) : Streams := if data = [] then [] else [(key, data)]

variable {s : Streams} {key key' : StreamKey} {data : Bytes}

theorem get_of_on (h : s.on key = entry key data) : s.get key = data := by
  have hfind : List.find? (·.1 == key) s = (entry key data).head? := by
    rw [← h]
    exact (List.head?_filter ..).symm
  rw [get, hfind, entry]
  by_cases hdata : data = []
  · simp [hdata]
  · simp [hdata]

theorem on_set_self (s : Streams) (key : StreamKey) (data : Bytes) :
    (s.set key data).on key = entry key data := by
  have hothers : List.filter (·.1 == key) (List.filter (·.1 != key) s) = [] := by
    simp [List.filter_filter]
  cases data with
  | nil => exact hothers
  | cons a rest =>
    show List.filter _ (_ ++ [(key, a :: rest)]) = _
    rw [List.filter_append, hothers]
    simp [entry]

theorem on_set_other (s : Streams) (h : key' ≠ key) (data : Bytes) :
    (s.set key' data).on key = s.on key := by
  have hothers : List.filter (·.1 == key) (List.filter (·.1 != key') s) =
      List.filter (·.1 == key) s := by
    rw [List.filter_filter]
    refine List.filter_congr fun e _ => ?_
    by_cases he : e.1 = key
    · simp [he, Ne.symm h]
    · simp [he]
  cases data with
  | nil => exact hothers
  | cons a rest =>
    show List.filter _ (_ ++ [(key', a :: rest)]) = _
    rw [List.filter_append, hothers]
    simp [on, h]

end Streams

/-- Whether a packet belongs to a byte stream. -/
def Packet.OnStream (p : Packet) (key : StreamKey) : Prop :=
  p.transport = .tcp ∧ (p.src, p.dst) = key

instance (p : Packet) (key : StreamKey) : Decidable (p.OnStream key) :=
  inferInstanceAs (Decidable (_ ∧ _))

/-- The octets of a stream that packets carry. -/
def received (key : StreamKey) (packets : List Packet) : Bytes :=
  packets.flatMap fun p => if p.OnStream key then p.payload else []

theorem received_append (key : StreamKey) (packets more : List Packet) :
    received key (packets ++ more) = received key packets ++ received key more :=
  List.flatMap_append

namespace Decoder

/-- The decoder after these packets. -/
def after (d : Decoder) (packets : List Packet) : Decoder :=
  packets.foldl (fun d p => (d.handle p).1) d

/-- Packets that do not belong to a stream leave it alone. -/
theorem on_process_other {d : Decoder} {key : StreamKey} {p : Packet} (hp : ¬ p.OnStream key) :
    (d.process p).1.streams.on key = d.streams.on key := by
  cases htransport : p.transport with
  | udp => rw [d.process_udp p htransport]
  | rdma => rw [d.process_rdma p htransport]
  | tcp =>
    have hother : (p.src, p.dst) ≠ key := fun hkey => hp ⟨htransport, hkey⟩
    rw [d.process_tcp p htransport]
    exact d.streams.on_set_other hother _

/-- A decoder that does not reorder, has handled the records of a stream that arrived within the
first `n` octets, and keeps what is unfinished. -/
structure Follows (d : Decoder) (settings : DecoderSettings) (key : StreamKey)
    (sent : List (List Bytes)) (n : Nat) : Prop where
  configured : d.settings = settings
  reorder : d.reorder = none
  kept : d.streams.on key = Streams.entry key (unfinished sent n)

variable {d : Decoder} {settings : DecoderSettings} {key : StreamKey} {sent : List (List Bytes)}
  {p : Packet}

theorem Follows.handle_eq {n : Nat} (h : d.Follows settings key sent n) (p : Packet) :
    d.handle p = d.process p := by
  rw [handle, h.reorder]

/-- The other packets leave the stream alone. -/
theorem Follows.off {n : Nat} (h : d.Follows settings key sent n) (hp : ¬ p.OnStream key) :
    (d.handle p).1.Follows settings key sent n := by
  rw [h.handle_eq]
  exact ⟨(d.settings_process p).trans h.configured, (d.reorder_process p).trans h.reorder,
    (on_process_other hp).trans h.kept⟩

/-- **A packet of the stream delivers the records that it completes.** -/
theorem Follows.on {before : Bytes} (h : d.Follows settings key sent before.length)
    (hsent : ∀ record ∈ sent, Sendable settings.maxRecord record) (hp : p.OnStream key)
    (hreceived : before ++ p.payload <+: streamOf sent) {complete : List (List Bytes)}
    (hcomplete : arrived sent (before ++ p.payload).length =
      arrived sent before.length ++ complete) :
    (d.handle p).1.Follows settings key sent (before ++ p.payload).length ∧
      ((d.handle p).1.toBooks, (d.handle p).2) =
        handleEach settings d.counted p (complete.map List.flatten) := by
  obtain ⟨htransport, hkey⟩ := hp
  have hget : d.streams.get (p.src, p.dst) = unfinished sent before.length := by
    rw [hkey]
    exact Streams.get_of_on h.kept
  have hharvest : harvest d.settings.maxRecord 0 (d.streams.get (p.src, p.dst) ++ p.payload) =
      ⟨complete.map List.flatten, unfinished sent (before ++ p.payload).length, none⟩ := by
    rw [hget, h.configured]
    exact harvest_unfinished hsent hreceived hcomplete
  have hhandle : d.handle p =
      let handled := handleEach settings d.counted p (complete.map List.flatten)
      ({ d with
          toBooks := handled.1
          streams := d.streams.set key (unfinished sent (before ++ p.payload).length) },
        handled.2) := by
    rw [h.handle_eq, d.process_tcp p htransport, handleRecords_eq, hharvest, h.configured, hkey]
    simp [Books.lose]
  rw [hhandle]
  exact ⟨⟨h.configured, h.reorder, d.streams.on_set_self ..⟩, rfl⟩

/-- What is known before a packet is known after it. -/
theorem Follows.next {before : Bytes} (h : d.Follows settings key sent before.length)
    (hsent : ∀ record ∈ sent, Sendable settings.maxRecord record)
    (hreceived : before ++ received key [p] <+: streamOf sent) :
    (d.handle p).1.Follows settings key sent (before ++ received key [p]).length := by
  by_cases hp : p.OnStream key
  · have hpayload : received key [p] = p.payload := by simp [received, hp]
    rw [hpayload] at hreceived ⊢
    obtain ⟨complete, hcomplete⟩ := arrived_mono sent (n := before.length)
      (m := (before ++ p.payload).length) (by simp)
    exact (h.on hsent hp hreceived hcomplete.symm).1
  · have hnone : received key [p] = [] := by simp [received, hp]
    rw [hnone, List.append_nil]
    exact h.off hp

theorem Follows.after {before : Bytes} (h : d.Follows settings key sent before.length)
    (hsent : ∀ record ∈ sent, Sendable settings.maxRecord record) {packets : List Packet}
    (hreceived : before ++ received key packets <+: streamOf sent) :
    (d.after packets).Follows settings key sent (before ++ received key packets).length := by
  induction packets generalizing d before with
  | nil =>
    rw [show received key [] = [] from rfl, List.append_nil]
    exact h
  | cons p rest ih =>
    rw [show received key (p :: rest) = received key [p] ++ received key rest from
      received_append key [p] rest, ← List.append_assoc] at hreceived ⊢
    exact ih (h.next hsent ((List.prefix_append ..).trans hreceived)) hreceived

end Decoder

/-- **A stream delivers exactly the records that were sent.** However the framing of the records was
cut into packets, and whatever other packets come in between: a packet of the stream hands over the
records that it completes, in order and each once, and nothing else is told of it; by the last
packet all have arrived. After every packet the decoder keeps of the stream what follows the last
complete record, and has no entry if that is nothing. -/
theorem records_delivered {d : Decoder} {key : StreamKey} (hreorder : d.reorder = none)
    (hempty : d.streams.on key = []) {sent : List (List Bytes)}
    (hsent : ∀ record ∈ sent, Sendable d.settings.maxRecord record) {packets : List Packet}
    (hpackets : received key packets = streamOf sent) :
    arrived sent (received key packets).length = sent ∧
      ∀ before p rest, packets = before ++ p :: rest →
        let now := d.after before
        let next := now.handle p
        let soFar := received key (before ++ [p])
        ∃ complete tail,
          arrived sent soFar.length = arrived sent (received key before).length ++ complete ∧
          soFar = streamOf (arrived sent soFar.length) ++ tail ∧
          next.1.streams.on key = Streams.entry key tail ∧
          (p.OnStream key → (next.1.toBooks, next.2) =
            handleEach d.settings now.counted p (complete.map List.flatten)) := by
  refine ⟨arrived_all (Nat.le_of_eq (congrArg List.length hpackets.symm)), ?_⟩
  rintro before p rest rfl
  intro now next soFar
  have hprefix : soFar <+: streamOf sent := by
    rw [← hpackets]
    exact ⟨received key rest, by simp [soFar, received]⟩
  have hsoFar : soFar = received key before ++ received key [p] := received_append ..
  have hnothing : unfinished sent 0 = [] :=
    (List.append_eq_nil_iff.mp (take_streamOf sent 0).symm).2
  have hstart : d.Follows d.settings key sent ([] : Bytes).length :=
    ⟨rfl, hreorder, by rw [hempty, List.length_nil, hnothing]; rfl⟩
  have hnow : now.Follows d.settings key sent (received key before).length :=
    hstart.after hsent (((hsoFar ▸ List.prefix_append ..).trans hprefix))
  have hnext := hnow.next hsent (p := p) (hsoFar ▸ hprefix)
  rw [← hsoFar] at hnext
  obtain ⟨complete, hcomplete⟩ :=
    arrived_mono sent (n := (received key before).length) (m := soFar.length) (by simp [hsoFar])
  refine ⟨complete, unfinished sent soFar.length, hcomplete.symm, ?_, hnext.kept, fun hp => ?_⟩
  · rw [← take_streamOf]
    exact List.prefix_iff_eq_take.mp hprefix
  · have hpayload : soFar = received key before ++ p.payload := by
      rw [hsoFar]
      simp [received, hp]
    rw [hpayload] at hprefix hcomplete
    exact (hnow.on hsent hp hprefix hcomplete.symm).2

/-- Two marks are cut, one fragment and one record are empty, and a datagram comes in between. -/
theorem records_delivered_from_pieces :
    let key : StreamKey := (default, default)
    let piece (seq : Nat) (payload : Bytes) : Packet :=
      ⟨⟨seq, none⟩, default, default, .tcp, payload⟩
    let datagram : Packet := ⟨⟨2, none⟩, default, default, .udp, [1]⟩
    let now := (Decoder.new {} fun _ _ _ => none).after
      [piece 1 [0, 0], datagram, piece 3 [0, 2, 1, 2, 0, 0, 0, 0, 0x80], piece 4 []]
    let next := now.handle (piece 5 [0, 0, 1, 3, 0x80, 0])
    next.1.streams.on key = [(key, [0x80, 0])] ∧
      next.2 = (handleEach {} now.counted (piece 5 [0, 0, 1, 3, 0x80, 0]) [[1, 2, 3]]).2 := by
  intro key piece datagram now next
  let sent : List (List Bytes) := [[[1, 2], [], [3]], [[]]]
  have hsent : ∀ record ∈ sent, Sendable 1048576 record := by
    intro record hrecord
    rcases List.mem_cons.mp hrecord with rfl | hrecord
    · exact ⟨⟨by decide, by decide⟩, by decide⟩
    · cases List.mem_singleton.mp hrecord
      exact ⟨⟨by decide, by decide⟩, by decide⟩
  let before := [piece 1 [0, 0], datagram, piece 3 [0, 2, 1, 2, 0, 0, 0, 0, 0x80], piece 4 []]
  let p := piece 5 [0, 0, 1, 3, 0x80, 0]
  have hpackets : received key (before ++ p :: [piece 6 [0, 0]]) = streamOf sent := by decide
  have hbefore : arrived sent (received key before).length = [] := by decide
  have hafter : arrived sent (received key (before ++ [p])).length = [[[1, 2], [], [3]]] := by
    decide
  have hrest : received key (before ++ [p]) = streamOf [[[1, 2], [], [3]]] ++ [0x80, 0] := by
    decide
  obtain ⟨complete, tail, hcomplete, htail, hkept, htold⟩ :=
    (records_delivered (d := .new {} fun _ _ _ => none) rfl rfl hsent hpackets).2 before p _ rfl
  rw [hafter, hbefore, List.nil_append] at hcomplete
  rw [hafter, hrest] at htail
  cases List.append_cancel_left htail
  subst hcomplete
  exact ⟨hkept, congrArg Prod.snd (htold ⟨rfl, rfl⟩)⟩

end NfsWire
