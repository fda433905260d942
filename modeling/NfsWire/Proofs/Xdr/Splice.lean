import NfsWire.Proofs.Xdr.RoundTrip

/-!
# Items that travel in read chunks

A sender may take the data of items out of a message and send it in read chunks; only their length
words stay. The reader of such a message sees the value as if nothing had been taken out, and it
stops at the end of what is left. From the other side, putting the chunks back at their positions
gives the octets that a writer has for the value.

All positions are those of the message before the removal. What makes this work over any number of
chunks is that a cursor counts the octets it was spared, padding included, so `Cursor.position`
moves over removed and present items alike. `kept` and `itemsAt` move in the same way over the flat
row of pieces, and no statement here depends on how the items nest in the value.
-/

namespace NfsWire

/-! ## Taking items out -/

/-- The data of an item and where it begins in the whole message. -/
structure Item where
  position : Nat
  data : Bytes
  deriving DecidableEq, Repr

/-- The items among the pieces, the first piece being at `position`. -/
def itemsAt : (position : Nat) → List Piece → List Item
  | _, [] => []
  | position, .fixed octets :: ps => itemsAt (position + octets.length) ps
  | position, .item data :: ps =>
    { position, data } :: itemsAt (position + Bytes.padded data.length) ps

/-- What is left of the pieces without the items at the positions that are `out`. -/
def kept (out : Nat → Bool) : (position : Nat) → List Piece → Bytes
  | _, [] => []
  | position, .fixed octets :: ps => octets ++ kept out (position + octets.length) ps
  | position, .item data :: ps =>
    (if out position then [] else Bytes.filled data) ++
      kept out (position + Bytes.padded data.length) ps

/-- In the message the item has its length in front of it, and its data is padded. -/
structure Item.StandsIn (i : Item) (message : Bytes) : Prop where
  four_le : 4 ≤ i.position
  count : message.between (i.position - 4) i.position = Bytes.word (UInt32.ofNat i.data.length)
  data : message.between i.position (i.position + Bytes.padded i.data.length) = Bytes.filled i.data

theorem Bytes.between_append (pre data post : Bytes) :
    (pre ++ (data ++ post)).between pre.length (pre.length + data.length) = data := by
  rw [Bytes.between, List.drop_left, Nat.add_sub_cancel_left, List.take_left]

theorem Item.standsIn_append (pre data post : Bytes) :
    Item.StandsIn { position := pre.length + 4, data }
      (pre ++ (Bytes.word (UInt32.ofNat data.length) ++ (Bytes.filled data ++ post))) := by
  refine ⟨Nat.le_add_left .., ?_, ?_⟩
  · have hcount := Bytes.between_append pre (Bytes.word (UInt32.ofNat data.length))
      (Bytes.filled data ++ post)
    rw [Bytes.length_word] at hcount
    exact hcount
  · have hdata := Bytes.between_append (pre ++ Bytes.word (UInt32.ofNat data.length))
      (Bytes.filled data) post
    rw [List.length_append, Bytes.length_word, Bytes.length_filled, List.append_assoc] at hdata
    exact hdata

/-- The items of a message are where `itemsAt` says, and they are apart. -/
theorem Announced.itemsAt {ps : List Piece} (h : Announced ps) (pre : Bytes) :
    (∀ i ∈ itemsAt pre.length ps, pre.length < i.position ∧ i.StandsIn (pre ++ whole ps)) ∧
      (itemsAt pre.length ps).Pairwise (·.position < ·.position) := by
  induction h generalizing pre with
  | nil => exact ⟨nofun, .nil⟩
  | @fixed octets ps _ ih =>
    obtain ⟨hitems, hapart⟩ := ih (pre ++ octets)
    rw [List.length_append] at hitems hapart
    rw [NfsWire.itemsAt]
    refine ⟨fun i hi => ?_, hapart⟩
    obtain ⟨hlt, hstands⟩ := hitems i hi
    rw [List.append_assoc] at hstands
    exact ⟨by omega, hstands⟩
  | @item data ps _ ih =>
    obtain ⟨hitems, hapart⟩ :=
      ih (pre ++ Bytes.word (UInt32.ofNat data.length) ++ Bytes.filled data)
    rw [List.length_append, List.length_append, Bytes.length_word, Bytes.length_filled]
      at hitems hapart
    rw [NfsWire.itemsAt, NfsWire.itemsAt, Bytes.length_word]
    constructor
    · intro i hi
      rcases List.mem_cons.mp hi with rfl | hi
      · exact ⟨Nat.lt_add_of_pos_right (by decide), Item.standsIn_append pre data (whole ps)⟩
      · obtain ⟨hlt, hstands⟩ := hitems i hi
        rw [List.append_assoc, List.append_assoc] at hstands
        exact ⟨by omega, hstands⟩
    · refine List.pairwise_cons.mpr ⟨fun i hi => ?_, hapart⟩
      have hlt := (hitems i hi).1
      show pre.length + 4 < i.position
      omega

/-! ## Chunks for the items that were taken out -/

/-- The map has read chunks for the items that are out, each with the data of its item. -/
structure ChunkMap.Supplies (m : ChunkMap) (out : Nat → Bool) (items : List Item) : Prop where
  some_at : ∀ i ∈ items, out i.position = true →
    ∃ chunk ∈ m.reads, chunk.ref.position.toNat = i.position
  only_at : ∀ i ∈ items, ∀ chunk ∈ m.reads, chunk.ref.position.toNat = i.position →
    out i.position = true ∧ chunk.Carries i.data

/-- The chunk that the map gives for the item, if the item is out. -/
theorem ChunkMap.Supplies.readAt? {m : ChunkMap} {out : Nat → Bool} {items : List Item}
    (h : m.Supplies out items) {i : Item} (hi : i ∈ items) :
    if out i.position then ∃ chunk, m.readAt? i.position = some chunk ∧ chunk.Carries i.data
    else m.readAt? i.position = none := by
  cases hat : m.readAt? i.position with
  | none =>
    split
    · rename_i hout
      obtain ⟨chunk, hmem, hposition⟩ := h.some_at i hi hout
      have hnot := List.find?_eq_none.mp hat chunk hmem
      exact absurd hposition (by simpa using hnot)
    · rfl
  | some chunk =>
    -- Only the first chunk at a position is found, and any chunk there is one of this item.
    have hposition : chunk.ref.position.toNat = i.position := by
      simpa using List.find?_some hat
    obtain ⟨hout, hcarries⟩ := h.only_at i hi chunk (List.mem_of_find?_eq_some hat) hposition
    rw [if_pos hout]
    exact ⟨chunk, rfl, hcarries⟩

/-- Over what is left, a cursor walks over all pieces. -/
theorem walks_kept {readAt? : Nat → Option Chunk} {out : Nat → Bool} {ps : List Piece} {c : Cursor}
    (hitems : ∀ i ∈ itemsAt c.position ps,
      if out i.position then ∃ chunk, readAt? i.position = some chunk ∧ chunk.Carries i.data
      else readAt? i.position = none)
    (hrest : c.rest = kept out c.position ps) :
    ∃ us c', Walks readAt? c ps us c' ∧ c'.offset = c.offset + c.rest.length := by
  induction ps generalizing c with
  | nil => exact ⟨[], c, .nil c, by rw [hrest]; rfl⟩
  | cons p ps ih =>
    cases p with
    | fixed octets =>
      rw [kept] at hrest
      let m : Cursor := { c with
        rest := kept out (c.position + octets.length) ps, offset := c.offset + octets.length }
      have hreads : c.Reads octets m := ⟨hrest, rfl, rfl, rfl⟩
      have hposition := hreads.position
      obtain ⟨us, c', hwalk, hoffset⟩ := ih (c := m)
        (by rw [hposition]; exact hitems) (by rw [hposition])
      refine ⟨us, c', .fixed hreads hwalk, ?_⟩
      rw [hoffset, hreads.offset, hreads.length_rest, Nat.add_assoc]
    | item data =>
      rw [kept] at hrest
      rw [itemsAt] at hitems
      have hhead := hitems _ List.mem_cons_self
      have htail := fun i hi => hitems i (List.mem_cons_of_mem _ hi)
      by_cases hout : out c.position = true
      · rw [if_pos hout] at hhead hrest
        obtain ⟨chunk, hat, hcarries⟩ := hhead
        -- The cursor stays, and the spared octets move its position behind the item.
        have hposition := c.position_splice data.length
        obtain ⟨us, c', hwalk, hoffset⟩ := ih (c := c.splice data.length)
          (by rw [hposition]; exact htail) (by rw [hposition]; exact hrest)
        exact ⟨_, c', .placed hat hcarries hwalk, hoffset⟩
      · rw [if_neg hout] at hhead hrest
        let m : Cursor := { c with
          rest := kept out (c.position + Bytes.padded data.length) ps
          offset := c.offset + (Bytes.filled data).length }
        have hreads : c.Reads (Bytes.filled data) m := ⟨hrest, rfl, rfl, rfl⟩
        have hposition := hreads.position
        rw [Bytes.length_filled] at hposition
        obtain ⟨us, c', hwalk, hoffset⟩ := ih (c := m)
          (by rw [hposition]; exact htail) (by rw [hposition])
        refine ⟨us, c', .inline hhead hreads hwalk, ?_⟩
        rw [hoffset, hreads.offset, hreads.length_rest, Nat.add_assoc]

/-! ## Putting items back -/

/-- The octets that were spared by the chunk: those of the item and their padding. -/
def ChunkUse.octets (u : ChunkUse) : Bytes :=
  Bytes.filled ((u.chunk.data.getD []).take u.length)

/-- Put data in front of the octet at an index. -/
def Bytes.insertAt (message : Bytes) (index : Nat) (data : Bytes) : Bytes :=
  message.take index ++ (data ++ message.drop index)

/-- Put the items back in order, into octets that begin at `start` of the message. -/
def restore (start : Nat) (inline : Bytes) (uses : List ChunkUse) : Bytes :=
  uses.foldl (fun message u => message.insertAt (u.position - start) u.octets) inline

theorem Bytes.insertAt_append (x y data : Bytes) (index : Nat) :
    (x ++ y).insertAt (x.length + index) data = x ++ y.insertAt index data := by
  unfold Bytes.insertAt
  rw [List.take_length_add_append, List.drop_length_add_append, List.append_assoc]

/-- Items that belong behind some octets leave these as they are. -/
theorem restore_append {start : Nat} {x inline : Bytes} {us : List ChunkUse}
    (h : ∀ u ∈ us, start + x.length ≤ u.position) :
    restore start (x ++ inline) us = x ++ restore (start + x.length) inline us := by
  induction us generalizing inline with
  | nil => rfl
  | cons u us ih =>
    have hu : start + x.length ≤ u.position := h u List.mem_cons_self
    have hindex : u.position - start = x.length + (u.position - (start + x.length)) := by omega
    unfold restore at ih ⊢
    rw [List.foldl_cons, List.foldl_cons, hindex, Bytes.insertAt_append]
    exact ih fun w hw => h w (List.mem_cons_of_mem _ hw)

theorem restore_cons {u : ChunkUse} {inline : Bytes} {us : List ChunkUse}
    (h : ∀ w ∈ us, u.position + u.octets.length ≤ w.position) :
    restore u.position inline (u :: us) =
      u.octets ++ restore (u.position + u.octets.length) inline us := by
  have hinsert : inline.insertAt (u.position - u.position) u.octets = u.octets ++ inline := by
    rw [Nat.sub_self]
    rfl
  rw [← restore_append h, ← hinsert]
  rfl

theorem Chunk.Carries.octets {chunk : Chunk} {data : Bytes} (h : chunk.Carries data)
    (position : Nat) (source : ChunkKind) :
    ({ position, length := data.length, chunk, source } : ChunkUse).octets = Bytes.filled data := by
  obtain ⟨all, hall, hprefix⟩ := h.data
  have htake : all.take data.length = data := (List.prefix_iff_eq_take.mp hprefix).symm
  show Bytes.filled ((chunk.data.getD []).take data.length) = _
  rw [hall, Option.getD_some, htake]

namespace Walks

variable {readAt? : Nat → Option Chunk} {c c' : Cursor} {ps : List Piece} {us : List ChunkUse}

/-- A walk uses chunks at or behind the place it begins at, and those that belong there. -/
theorem of_mem (h : Walks readAt? c ps us c') :
    ∀ u ∈ us, c.position ≤ u.position ∧ readAt? u.position = some u.chunk := by
  induction h with
  | nil => nofun
  | fixed hr _ ih | inline _ hr _ ih =>
    intro u hu
    obtain ⟨hle, hat⟩ := ih u hu
    rw [hr.position] at hle
    exact ⟨by omega, hat⟩
  | @placed c _ data _ _ _ hat _ _ ih =>
    intro u hu
    rcases List.mem_cons.mp hu with rfl | hu
    · exact ⟨Nat.le_refl _, hat⟩
    · obtain ⟨hle, hat⟩ := ih u hu
      rw [Cursor.position_splice] at hle
      exact ⟨by omega, hat⟩

/-- Octets that are read in line stay in front of all that is put back behind them. -/
theorem restore_reads {m : Cursor} {octets : Bytes} (hr : c.Reads octets m)
    (hwalk : Walks readAt? m ps us c')
    (h : ∃ inline, m.rest = inline ++ c'.rest ∧ c'.offset = m.offset + inline.length ∧
      restore m.position inline us = whole ps) :
    ∃ inline, c.rest = inline ++ c'.rest ∧ c'.offset = c.offset + inline.length ∧
      restore c.position inline us = octets ++ whole ps := by
  obtain ⟨inline, hrest, hoffset, hwhole⟩ := h
  have hbehind : ∀ u ∈ us, c.position + octets.length ≤ u.position := by
    rw [← hr.position]
    exact fun u hu => (hwalk.of_mem u hu).1
  refine ⟨octets ++ inline, ?_, ?_, ?_⟩
  · rw [hr.rest, hrest, List.append_assoc]
  · rw [hoffset, hr.offset, List.length_append, Nat.add_assoc]
  · rw [restore_append hbehind, ← hr.position, hwhole]

/-- With the chunks put back, what a walk went over in line is the whole of its pieces. -/
theorem restore (h : Walks readAt? c ps us c') :
    ∃ inline, c.rest = inline ++ c'.rest ∧ c'.offset = c.offset + inline.length ∧
      restore c.position inline us = whole ps := by
  induction h with
  | nil => exact ⟨[], rfl, rfl, rfl⟩
  | fixed hr hwalk ih => exact restore_reads hr hwalk ih
  | inline _ hr hwalk ih => exact restore_reads hr hwalk ih
  | @placed c c' data chunk ps us hat hcarries hwalk ih =>
    obtain ⟨inline, hrest, hoffset, hwhole⟩ := ih
    refine ⟨inline, hrest, hoffset, ?_⟩
    let u : ChunkUse := { position := c.position, length := data.length, chunk, source := .read }
    have hoctets : u.octets = Bytes.filled data := hcarries.octets c.position .read
    -- All later uses lie behind this item, so it can be put in front of them.
    have hnext : u.position + u.octets.length = (c.splice data.length).position := by
      rw [hoctets, Bytes.length_filled, Cursor.position_splice]
    have hbehind : ∀ w ∈ us, u.position + u.octets.length ≤ w.position := by
      rw [hnext]
      exact fun w hw => (hwalk.of_mem w hw).1
    have hcons : NfsWire.restore u.position inline (u :: us) = _ := restore_cons hbehind
    rw [hnext, hwhole, hoctets] at hcons
    exact hcons

end Walks

/-! ## Splicing is transparent -/

namespace Shape

variable {shape : Shape} {v : Value}

/-- A value some of whose items were taken out is read, up to the end of what is left. -/
theorem Conforms.decode_kept (hv : shape.Conforms v) {m : ChunkMap} {out : Nat → Bool}
    {header : Bytes} (h : m.Supplies out (itemsAt header.length (shape.layout v))) :
    ∃ c, shape.decode { chunks := some m }
        (Cursor.at (header ++ kept out header.length (shape.layout v)) header.length) = .ok v c ∧
      c.offset = (header ++ kept out header.length (shape.layout v)).length := by
  have hle : header.length ≤ (header ++ kept out header.length (shape.layout v)).length := by
    rw [List.length_append]
    omega
  have hposition : (Cursor.at (header ++ kept out header.length (shape.layout v))
      header.length).position = header.length := Cursor.offset_at hle
  have hrest : (Cursor.at (header ++ kept out header.length (shape.layout v))
      header.length).rest = kept out header.length (shape.layout v) := List.drop_left
  obtain ⟨us, c, hwalk, hoffset⟩ := walks_kept
    (by rw [hposition]; exact fun i hi => h.readAt? hi) (by rw [hposition]; exact hrest)
  refine ⟨c, ?_, ?_⟩
  · rw [decode_eq_trace]
    exact Reader.map_ok_iff.mpr ⟨(v, us), hv.trace_of_walks rfl nofun hwalk, rfl⟩
  · rw [hoffset, Cursor.offset_at hle, hrest, List.length_append]

/-- Putting back the chunks that were used gives what is written for the value. -/
theorem encode_of_trace (hd : shape.distinctNames = true) {strict : Bool} {m : ChunkMap}
    {message : Bytes} {start : Nat} (hstart : start ≤ message.length) {c : Cursor}
    {us : List ChunkUse}
    (h : shape.trace { strict, chunks := some m } (Cursor.at message start) = .ok (v, us) c)
    (hfull : ∀ u ∈ us, u.Full) :
    (∀ u ∈ us, m.readAt? u.position = some u.chunk) ∧
      NfsWire.encode v shape = .ok (restore start (message.between start c.offset) us) := by
  obtain ⟨hv, hwalk⟩ := trace_walks shape rfl h fun u hu _ => hfull u hu
  refine ⟨fun u hu => (hwalk.of_mem u hu).2, ?_⟩
  obtain ⟨inline, hrest, hoffset, hwhole⟩ := hwalk.restore
  have hposition : (Cursor.at message start).position = start := Cursor.offset_at hstart
  obtain ⟨-, -, hbetween⟩ := Cursor.between hstart hrest hoffset
  rw [hposition] at hwhole
  rw [hbetween, hwhole]
  exact encode_whole hv hd

end Shape

/-- **Splicing read chunks is transparent.** Take any items out of what is written for a value, and
supply each of them in a read chunk at its position: the same value is read from what is left, all
of it. And whatever is read with chunks that have all octets of their items, putting these back
into the octets that were read gives what is written for the value. -/
theorem decode_spliced {shape : Shape} (hd : shape.distinctNames = true) (m : ChunkMap) :
    (∀ (v : Value) (header : Bytes) (out : Nat → Bool), shape.Conforms v →
      m.Supplies out (itemsAt header.length (shape.layout v)) →
        encode v shape = .ok (whole (shape.layout v)) ∧
        (∀ i ∈ itemsAt header.length (shape.layout v),
          i.StandsIn (header ++ whole (shape.layout v))) ∧
        (itemsAt header.length (shape.layout v)).Pairwise (·.position < ·.position) ∧
        ∃ c, shape.decode { chunks := some m }
            (Cursor.at (header ++ kept out header.length (shape.layout v)) header.length) =
              .ok v c ∧
          c.offset = (header ++ kept out header.length (shape.layout v)).length) ∧
    ∀ (strict : Bool) (message : Bytes) (start : Nat) (v : Value) (c : Cursor),
      start ≤ message.length →
      shape.decode { strict, chunks := some m } (Cursor.at message start) = .ok v c →
        ∃ uses, shape.trace { strict, chunks := some m } (Cursor.at message start) =
            .ok (v, uses) c ∧
          ((∀ u ∈ uses, u.Full) →
            (∀ u ∈ uses, m.readAt? u.position = some u.chunk) ∧
              encode v shape = .ok (restore start (message.between start c.offset) uses)) := by
  constructor
  · intro v header out hv hsupplies
    obtain ⟨hitems, hapart⟩ := hv.announced.itemsAt header
    exact ⟨encode_whole hv hd, fun i hi => (hitems i hi).2, hapart, hv.decode_kept hsupplies⟩
  · intro strict message start v c hstart h
    rw [Shape.decode_eq_trace] at h
    obtain ⟨⟨w, us⟩, htrace, rfl⟩ := Reader.map_ok_iff.mp h
    exact ⟨us, htrace, Shape.encode_of_trace hd hstart htrace⟩

/-- A text and opaque data, both taken out, the second chunk with its padding. -/
theorem decode_spliced_text_and_octets :
    ∃ c, (Shape.struct [("name", Shape.anyText), ("data", Shape.anyOctets)]).decode
        { chunks := some { reads := [
          { ref := { kind := .read, index := 0, position := 8, length := 2, handles := [] },
            data := some [104, 105] },
          { ref := { kind := .read, index := 1, position := 16, length := 8, handles := [] },
            data := some [1, 2, 3, 4, 5, 0, 0, 0] }] } }
        (Cursor.at [9, 9, 9, 9, 0, 0, 0, 2, 0, 0, 0, 5] 4) =
          .ok (.struct [("name", .text [104, 105]), ("data", .octets [1, 2, 3, 4, 5])]) c ∧
      c.offset = 12 := by
  have hcount (n : Nat) (hn : n < UInt32.size) : (Extent.variable none).Admits n :=
    Extent.admits_variable.mpr ⟨hn, nofun⟩
  have hv : (Shape.struct [("name", Shape.anyText), ("data", Shape.anyOctets)]).Conforms
      (.struct [("name", .text [104, 105]), ("data", .octets [1, 2, 3, 4, 5])]) := by
    refine .struct rfl ?_
    rintro p (_ | ⟨_, _ | ⟨_, ⟨⟩⟩⟩)
    · exact .text (hcount 2 (by decide))
    · exact .octets (hcount 5 (by decide))
  refine (((decode_spliced (by decide) _).1 _ [9, 9, 9, 9] (fun _ => true) hv ⟨?_, ?_⟩).2).2.2
  · decide
  · rintro i (_ | ⟨_, _ | ⟨_, ⟨⟩⟩⟩) chunk (_ | ⟨_, _ | ⟨_, ⟨⟩⟩⟩) hposition
    · exact ⟨rfl, by decide, by decide, _, rfl, by decide⟩
    · exact absurd hposition (by decide)
    · exact absurd hposition (by decide)
    · exact ⟨rfl, by decide, by decide, _, rfl, by decide⟩

end NfsWire
