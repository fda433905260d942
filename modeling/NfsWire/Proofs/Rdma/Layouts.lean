import NfsWire.Proofs.Rdma.Coverage
import NfsWire.Proofs.Rdma.Listing

/-!
# Which layouts of chunks are accepted, and what is handed on

Three functions look at the read list of a header: `groupReads` puts entries of one position
together, `checkReads` refuses positions that decrease, and `readChunks` hands the chunks on,
without the one that holds the message. Here all three are followed from the entries of the wire to
the chunks of the map.

1. What passes the checks is a layout of the entries (`checkReads_chunks_iff`). The positions of the
   chunks then increase, since neighbours differ already (`pairwise_lt_of_apart`).
2. Where they increase, each chunk has all segments at its position, and a chunk at position zero is
   the first one. So the chunks behind position zero are handed on, whether the first one is left
   out or there is none to be left out (`delivered`).
3. The message is in the chunk at position zero or else in the reply chunk
   (`messageChunk?_of_startsAtZero`, `messageChunk?_of_not_startsAtZero`), and it is there just for
   valid layouts (`valid_of_payloadOf`, `payloadOf_of_valid`).

About the source of the data no more is asked than that it gives as many octets as it was asked for.
The store of captured transfers does (`ChunkStore.exact_fetch`).
-/

namespace NfsWire.Rdma

/-! ## Data of segments -/

/-- What is fetched has the length that was asked for. -/
def ChunkSource.Exact (source : ChunkSource) : Prop :=
  ∀ handle offset length data, source handle offset length = some data →
    data.length = length.toNat

/-- A walk that gets through takes every octet of its range once. -/
theorem ChunkStore.length_of_walk {pieces : List Piece} {address stop : Nat} {data : Bytes}
    (h : ChunkStore.walk pieces address stop = some data) : data.length = stop - address := by
  by_cases hlt : address < stop
  · rw [ChunkStore.walk, dif_pos hlt] at h
    cases hat : ChunkStore.pieceAt? pieces address with
    | none =>
      rw [hat] at h
      cases h
    | some p =>
      rw [hat] at h
      dsimp only at h
      split at h
      next hreach =>
        obtain ⟨more, hmore, rfl⟩ := Option.map_eq_some_iff.mp h
        obtain ⟨-, hstart, -⟩ := ChunkStore.pieceAt?_eq_some hat
        have hstop : p.stop = p.start + p.data.length := rfl
        have hrest := ChunkStore.length_of_walk hmore
        rw [List.length_append, List.length_take, List.length_drop, hrest]
        omega
      next => cases h
  · rw [ChunkStore.walk_of_le (Nat.le_of_not_lt hlt)] at h
    cases h
    rw [List.length_nil]
    omega
termination_by stop - address

theorem ChunkStore.exact_fetch (s : ChunkStore) : ChunkSource.Exact s.fetch := by
  intro handle offset length data h
  simp only [ChunkStore.fetch] at h
  split at h
  · cases h
  · rw [ChunkStore.length_of_walk h, Nat.add_sub_cancel_left]

/-- The capture does not have the segment. -/
def Lacks (source : ChunkSource) (s : Segment) : Prop :=
  source s.handle s.offset s.length = none

/-- The capture has all segments, and this is their data, one after the other. -/
def Fetched (source : ChunkSource) (segments : List Segment) (data : Bytes) : Prop :=
  ∃ parts : List Bytes,
    segments.map (fun s => source s.handle s.offset s.length) = parts.map some ∧
      parts.flatten = data

section Resolve

variable {source : ChunkSource} {segments : List Segment} {data : Bytes}

theorem resolve_eq_some_iff :
    resolve source segments = some data ↔ Fetched source segments data := by
  simp only [resolve, Option.map_eq_some_iff, mapM_eq_some_iff, Fetched]

theorem resolve_eq_none_iff : resolve source segments = none ↔ ∃ s ∈ segments, Lacks source s := by
  rw [resolve, Option.map_eq_none_iff, mapM_eq_none_iff]
  rfl

/-- Together the segments have as many octets as the header says of each. -/
theorem ChunkSource.Exact.length_eq (hexact : source.Exact) (h : Fetched source segments data) :
    data.length = octetsIn segments := by
  obtain ⟨parts, hparts, rfl⟩ := h
  induction segments generalizing parts with
  | nil =>
    cases parts with
    | nil => rfl
    | cons part parts => cases hparts
  | cons s rest ih =>
    cases parts with
    | nil => cases hparts
    | cons part parts =>
      obtain ⟨hpart, hparts⟩ := List.cons.inj hparts
      rw [List.flatten_cons, List.length_append, hexact _ _ _ _ hpart, ih parts hparts]
      rfl

theorem toNat_segmentsLength (segments : List Segment) :
    (segmentsLength segments).toNat =
      min (octetsIn segments) (UInt32.size - 1) :=
  UInt32.toNat_ofNat_of_lt' (Nat.lt_of_le_of_lt (Nat.min_le_right ..) (by decide))

end Resolve

/-! ## Layouts -/

/-- The first entry of the read list is at position zero. -/
def ListedChunks.StartsAtZero (l : ListedChunks) : Prop :=
  l.entries.head?.map (·.position) = some 0

instance (l : ListedChunks) : Decidable l.StartsAtZero :=
  inferInstanceAs (Decidable (_ = _))

/-- The chunks are laid out as a message with or without an inline part can have them. -/
structure ListedChunks.Valid (inline : Bool) (l : ListedChunks) : Prop where
  aligned : ∀ e ∈ l.entries, e.position % 4 = 0
  ordered : l.entries.Pairwise (·.position ≤ ·.position)
  nonzero : inline = true → ∀ e ∈ l.entries, e.position ≠ 0
  /-- A message that is not inline has to be in a chunk. -/
  somewhere : inline = false → l.StartsAtZero ∨ l.reply.isSome

/-- The segments of the chunk that holds the message when none is inline. -/
def ListedChunks.messageSegments (l : ListedChunks) : List Segment :=
  if l.StartsAtZero then segmentsAt l.entries 0 else l.reply.elim [] (·.segments)

section Checks

variable {inline : Bool}

theorem readFault?_eq_none_iff {previous : Option UInt32} {position : UInt32} :
    readFault? inline previous position = none ↔
      position % 4 = 0 ∧ (inline = true → position ≠ 0) ∧ ∀ p ∈ previous, p ≤ position := by
  unfold readFault?
  split
  next haligned => simp [haligned]
  next haligned =>
    have haligned := Decidable.not_not.mp haligned
    split
    next hzero => simp [hzero]
    next hzero =>
      have hnonzero : inline = true → position ≠ 0 := fun hinline hposition =>
        hzero ⟨hposition, hinline⟩
      cases previous with
      | none => simpa [haligned] using hnonzero
      | some p => simpa [haligned] using fun _ => hnonzero

/-- **The checks pass if and only if all positions are multiples of four, none is zero beside an
inline message, and they do not decrease.** -/
theorem checkReads_ok_iff {i : Nat} {previous : Option UInt32} {chunks : List ReadChunk} :
    checkReads inline i previous chunks = .ok () ↔
      (∀ c ∈ chunks, c.position % 4 = 0) ∧ (∀ c ∈ chunks, inline = true → c.position ≠ 0) ∧
        (∀ c ∈ chunks, ∀ p ∈ previous, p ≤ c.position) ∧
        chunks.Pairwise (·.position ≤ ·.position) := by
  induction chunks generalizing i previous with
  | nil => simp [checkReads]
  | cons c rest ih =>
    rw [checkReads]
    constructor
    · intro h
      cases hfault : readFault? inline previous c.position with
      | some what =>
        rw [hfault] at h
        cases h
      | none =>
        rw [hfault] at h
        obtain ⟨haligned, hnonzero, hprevious⟩ := readFault?_eq_none_iff.mp hfault
        obtain ⟨haligned', hnonzero', hfirst, hordered⟩ := ih.mp h
        refine ⟨List.forall_mem_cons.mpr ⟨haligned, haligned'⟩,
          List.forall_mem_cons.mpr ⟨hnonzero, hnonzero'⟩,
          List.forall_mem_cons.mpr ⟨hprevious, fun d hd p hp => ?_⟩,
          .cons (fun d hd => hfirst d hd _ rfl) hordered⟩
        exact UInt32.le_trans (hprevious p hp) (hfirst d hd _ rfl)
    · rintro ⟨haligned, hnonzero, hprevious, hordered⟩
      obtain ⟨haligned, haligned'⟩ := List.forall_mem_cons.mp haligned
      obtain ⟨hnonzero, hnonzero'⟩ := List.forall_mem_cons.mp hnonzero
      obtain ⟨hprevious, -⟩ := List.forall_mem_cons.mp hprevious
      obtain ⟨hfirst, hordered⟩ := List.pairwise_cons.mp hordered
      rw [readFault?_eq_none_iff.mpr ⟨haligned, hnonzero, hprevious⟩]
      refine ih.mpr ⟨haligned', hnonzero', fun d hd p hp => ?_, hordered⟩
      cases hp
      exact hfirst d hd

/-- The entries of the read list are laid out as the checks want them. -/
theorem checkReads_chunks_iff {l : ListedChunks} :
    checkReads inline 0 none l.chunks.reads = .ok () ↔
      (∀ e ∈ l.entries, e.position % 4 = 0) ∧ (∀ e ∈ l.entries, inline = true → e.position ≠ 0) ∧
        l.entries.Pairwise (·.position ≤ ·.position) := by
  rw [checkReads_ok_iff, l.grouped.forall_iff (p := fun position => position % 4 = 0),
    l.grouped.forall_iff (p := fun position => inline = true → position ≠ 0),
    l.grouped.pairwise_iff]
  simp

end Checks

/-! ## What is handed on -/

/-- The chunk is the one that the header describes by these segments. -/
structure StandsFor (source : ChunkSource) (segments : List Segment) (chunk : Chunk) : Prop where
  handles : chunk.ref.handles = segments.map (·.handle)
  length : chunk.ref.length.toNat =
    min (octetsIn segments) (UInt32.size - 1)
  data : ∀ data, chunk.data = some data ↔ Fetched source segments data
  size : ∀ data, chunk.data = some data →
    min data.length (UInt32.size - 1) = chunk.ref.length.toNat

/-- The map has a read chunk for each position behind zero, in their order, and the write chunks in
the order of their list. -/
structure ListedChunks.Delivered (source : ChunkSource) (map : ChunkMap) (l : ListedChunks) :
    Prop where
  increasing : map.reads.Pairwise (·.ref.position < ·.ref.position)
  aligned : ∀ chunk ∈ map.reads, chunk.ref.position % 4 = 0
  /-- Position zero is that of the message itself. -/
  positions : ∀ position, (∃ chunk ∈ map.reads, chunk.ref.position = position) ↔
    position ≠ 0 ∧ ∃ e ∈ l.entries, e.position = position
  reads : ∀ chunk ∈ map.reads, chunk.ref.kind = .read ∧
    StandsFor source (segmentsAt l.entries chunk.ref.position) chunk
  /-- No other chunk is found where this one belongs. -/
  found : ∀ chunk ∈ map.reads, map.readAt? chunk.ref.position.toNat = some chunk
  writes_length : map.writes.length = l.writes.length
  writes : ∀ k chunk c, map.writes[k]? = some chunk → l.writes[k]? = some c →
    chunk.ref.kind = .write ∧ chunk.ref.index = k ∧ StandsFor source c.segments chunk

section Delivered

variable {source : ChunkSource}

theorem standsFor_refOf (hexact : source.Exact) (kind : ChunkKind) (index : Nat)
    (position : UInt32) (segments : List Segment) :
    StandsFor source segments ⟨refOf kind index position segments, resolve source segments⟩ where
  handles := rfl
  length := toNat_segmentsLength segments
  data _ := resolve_eq_some_iff
  size data h := by
    rw [hexact.length_eq (resolve_eq_some_iff.mp h)]
    exact (toNat_segmentsLength segments).symm

theorem map_position_readChunks (i : Nat) (chunks : List ReadChunk) :
    (readChunks source i chunks).map (·.ref.position) = chunks.map (·.position) := by
  induction chunks generalizing i with
  | nil => rfl
  | cons c rest ih => rw [readChunks, List.map_cons, ih, List.map_cons]; rfl

theorem mem_readChunks {i : Nat} {chunks : List ReadChunk} {chunk : Chunk}
    (h : chunk ∈ readChunks source i chunks) :
    ∃ c ∈ chunks, ∃ index, chunk =
      ⟨refOf .read index c.position c.segments, resolve source c.segments⟩ := by
  induction chunks generalizing i with
  | nil => cases h
  | cons c rest ih =>
    rw [readChunks] at h
    rcases List.mem_cons.mp h with rfl | h
    · exact ⟨c, List.mem_cons_self, i, rfl⟩
    · obtain ⟨d, hd, hchunk⟩ := ih h
      exact ⟨d, List.mem_cons_of_mem _ hd, hchunk⟩

theorem getElem?_writeChunks (i : Nat) (chunks : List WriteChunk) (k : Nat) :
    (writeChunks source i chunks)[k]? = chunks[k]?.map fun c =>
      ⟨refOf .write (i + k) 0 c.segments, resolve source c.segments⟩ := by
  induction chunks generalizing i k with
  | nil => rfl
  | cons c rest ih =>
    rw [writeChunks]
    cases k with
    | zero => rfl
    | succ k =>
      rw [List.getElem?_cons_succ, List.getElem?_cons_succ, ih, Nat.add_right_comm, Nat.add_assoc]

theorem length_writeChunks (i : Nat) (chunks : List WriteChunk) :
    (writeChunks source i chunks).length = chunks.length := by
  induction chunks generalizing i with
  | nil => rfl
  | cons c rest ih => rw [writeChunks, List.length_cons, ih, List.length_cons]

/-- If the read chunks are those behind position zero, and positions increase, all is handed on. -/
theorem delivered (hexact : source.Exact) {l : ListedChunks} {i : Nat} {kept : List ReadChunk}
    (haligned : ∀ e ∈ l.entries, e.position % 4 = 0)
    (hlt : l.chunks.reads.Pairwise (·.position < ·.position))
    (hkept : kept = l.chunks.reads.filter (·.position ≠ 0)) :
    l.Delivered source
      { reads := readChunks source i kept, writes := writeChunks source 0 l.writes } := by
  have hmem {c : ReadChunk} : c ∈ kept ↔ c ∈ l.chunks.reads ∧ c.position ≠ 0 := by
    rw [hkept, List.mem_filter, decide_eq_true_eq]
  have hincreasing : (readChunks source i kept).Pairwise (·.ref.position < ·.ref.position) := by
    rw [← List.pairwise_map (f := fun chunk : Chunk => chunk.ref.position),
      map_position_readChunks, List.pairwise_map, hkept]
    exact hlt.filter _
  refine {
    increasing := hincreasing
    aligned := ?aligned
    positions := ?positions
    reads := ?reads
    found := ?found
    writes_length := length_writeChunks 0 l.writes
    writes := ?writes }
  case aligned =>
    intro chunk hchunk
    obtain ⟨c, hc, index, rfl⟩ := mem_readChunks hchunk
    exact (l.grouped.forall_iff (p := fun position => position % 4 = 0)).mpr haligned c
      (hmem.mp hc).1
  case positions =>
    intro position
    have hpositions : (∃ chunk ∈ readChunks source i kept, chunk.ref.position = position) ↔
        ∃ c ∈ kept, c.position = position := by
      rw [← List.mem_map, map_position_readChunks, List.mem_map]
    rw [hpositions, ← l.grouped.exists_iff (p := (· = position))]
    constructor
    · rintro ⟨c, hc, rfl⟩
      exact ⟨(hmem.mp hc).2, c, (hmem.mp hc).1, rfl⟩
    · rintro ⟨hzero, c, hc, rfl⟩
      exact ⟨c, hmem.mpr ⟨hc, hzero⟩, rfl⟩
  case reads =>
    intro chunk hchunk
    obtain ⟨c, hc, index, rfl⟩ := mem_readChunks hchunk
    refine ⟨rfl, ?_⟩
    show StandsFor source (segmentsAt l.entries c.position) _
    rw [l.grouped.segmentsAt_eq hlt (hmem.mp hc).1]
    exact standsFor_refOf hexact ..
  case found =>
    intro chunk hchunk
    have hkeys : ((readChunks source i kept).map (·.ref.position.toNat)).Nodup :=
      List.pairwise_map.mpr (hincreasing.imp Nat.ne_of_lt)
    exact Table.find?_key_of_mem (·.ref.position.toNat) hkeys hchunk
  case writes =>
    intro k chunk c hchunk hc
    rw [getElem?_writeChunks, hc, Nat.zero_add] at hchunk
    cases hchunk
    exact ⟨rfl, rfl, standsFor_refOf hexact ..⟩

end Delivered

/-! ## The message -/

/-- What a payload with these chunks and `rest` behind its header is put together to. -/
def ListedChunks.Outcome (source : ChunkSource) (inline : Bool) (rest : Bytes) (l : ListedChunks) :
    Payload → Prop
  | .message stream map => l.Delivered source map ∧
      if inline then stream = rest else Fetched source l.messageSegments stream
  | .unresolved _ => inline = false ∧ ∃ s ∈ l.messageSegments, Lacks source s
  | .error _ => False

section PayloadOf

variable {source : ChunkSource} {l : ListedChunks} {inline : Bool} {rest : Bytes}
  {payload : Payload}

/-- In a layout that the checks pass, positions of read chunks increase. -/
theorem pairwise_lt_of_checked (h : checkReads inline 0 none l.chunks.reads = .ok ()) :
    l.chunks.reads.Pairwise (·.position < ·.position) := by
  obtain ⟨-, -, hordered⟩ := checkReads_chunks_iff.mp h
  exact pairwise_lt_of_apart l.grouped.apart (l.grouped.pairwise_iff.mpr hordered)

/-- **A call that was sent away is in the read chunk at position zero**, and what is handed on are
the other chunks. -/
theorem messageChunk?_of_startsAtZero (hexact : source.Exact)
    (hchecked : checkReads inline 0 none l.chunks.reads = .ok ()) (hzero : l.StartsAtZero) :
    ∃ ref map, messageChunk? source l.chunks = some (⟨ref, resolve source l.messageSegments⟩, map) ∧
      l.Delivered source map := by
  have hlt := pairwise_lt_of_checked hchecked
  have hhead := l.grouped.head?_eq.trans hzero
  cases hreads : l.chunks.reads with
  | nil =>
    rw [hreads] at hhead
    cases hhead
  | cons first rest =>
    rw [hreads] at hhead hlt
    have hfirst : first.position = 0 := Option.some.inj hhead
    have hsegments : l.messageSegments = first.segments := by
      rw [ListedChunks.messageSegments, if_pos hzero, ← hfirst]
      exact l.grouped.segmentsAt_eq (hreads ▸ hlt) (hreads ▸ List.mem_cons_self)
    -- Behind the first chunk positions are greater, so it is the only one at zero.
    have hkept : rest = l.chunks.reads.filter (·.position ≠ 0) := by
      rw [hreads, List.filter_cons_of_neg (by simpa using hfirst), eq_comm, List.filter_eq_self]
      intro c hc
      have hpos := (List.pairwise_cons.mp hlt).1 c hc
      rw [hfirst] at hpos
      exact decide_eq_true (UInt32.ne_of_lt hpos).symm
    refine ⟨refOf .read 0 0 first.segments, _, ?_,
      delivered (i := 1) hexact (checkReads_chunks_iff.mp hchecked).1 (hreads ▸ hlt) hkept⟩
    rw [hsegments]
    simp only [messageChunk?, hreads, if_pos hfirst]
    rfl

/-- Otherwise it is in the reply chunk, if there is one, and all other chunks are handed on. -/
theorem messageChunk?_of_not_startsAtZero (h : ¬ l.StartsAtZero) :
    messageChunk? source l.chunks = l.reply.map fun r =>
      (⟨refOf .reply 0 0 r.segments, resolve source r.segments⟩, chunkMap source l.chunks) := by
  cases hreads : l.chunks.reads with
  | nil =>
    simp only [messageChunk?, hreads, chunkMap, readChunks]
    rfl
  | cons first rest =>
    have hfirst : first.position ≠ 0 := fun hfirst => h (by
      rw [ListedChunks.StartsAtZero, ← l.grouped.head?_eq, hreads]
      exact congrArg some hfirst)
    simp only [messageChunk?, hreads, if_neg hfirst, chunkMap]
    rfl

/-- Without a chunk at position zero all read chunks are handed on. -/
theorem delivered_chunkMap (hexact : source.Exact)
    (hchecked : checkReads inline 0 none l.chunks.reads = .ok ()) (h : ¬ l.StartsAtZero) :
    l.Delivered source (chunkMap source l.chunks) := by
  have hlt := pairwise_lt_of_checked hchecked
  refine delivered hexact (checkReads_chunks_iff.mp hchecked).1 hlt ?_
  rw [eq_comm, List.filter_eq_self]
  intro c hc
  refine decide_eq_true fun hposition => h ?_
  rw [ListedChunks.StartsAtZero, ← l.grouped.head?_eq]
  -- A chunk at position zero comes first.
  cases hreads : l.chunks.reads with
  | nil =>
    rw [hreads] at hc
    cases hc
  | cons first rest =>
    rw [hreads] at hc hlt
    rcases List.mem_cons.mp hc with rfl | hc
    · exact congrArg some hposition
    · have hpos := (List.pairwise_cons.mp hlt).1 c hc
      rw [hposition] at hpos
      exact absurd hpos UInt32.not_lt_zero

/-- A layout is one that a message can have if the checks pass and the message is somewhere. -/
theorem valid_iff : l.Valid inline ↔ checkReads inline 0 none l.chunks.reads = .ok () ∧
    (inline = false → l.StartsAtZero ∨ l.reply.isSome) := by
  rw [checkReads_chunks_iff]
  constructor
  · intro h
    exact ⟨⟨h.aligned, fun e he hinline => h.nonzero hinline e he, h.ordered⟩, h.somewhere⟩
  · rintro ⟨⟨haligned, hnonzero, hordered⟩, hsomewhere⟩
    exact ⟨haligned, hordered, fun hinline e he => hnonzero e he hinline, hsomewhere⟩

theorem checkChunks_ok_iff {chunks : ChunkLists} : checkChunks inline chunks = .ok () ↔
    checkReads inline 0 none chunks.reads = .ok () ∧ (inline = false → chunks.isEmpty = false) := by
  unfold checkChunks
  cases checkReads inline 0 none chunks.reads with
  | error e =>
    constructor
    · intro h
      cases h
    · rintro ⟨h, -⟩
      cases h
  | ok =>
    show (if (!inline) = true ∧ chunks.isEmpty = true then Except.error _ else Except.ok ()) =
      Except.ok () ↔ _
    split
    next hempty =>
      constructor
      · intro h
        cases h
      · simp_all
    next hempty => simp_all

/-- If there is a message somewhere there are chunks. -/
theorem isEmpty_chunks (h : l.StartsAtZero ∨ l.reply.isSome) : l.chunks.isEmpty = false := by
  rcases h with hzero | hreply
  · have hhead := l.grouped.head?_eq.trans hzero
    cases hreads : l.chunks.reads with
    | nil =>
      rw [hreads] at hhead
      cases hhead
    | cons first rest => simp [ChunkLists.isEmpty, hreads]
  · have hreply : l.chunks.reply.isNone = false := by
      rw [← Option.not_isSome, show l.chunks.reply.isSome = true from hreply]
      rfl
    simp [ChunkLists.isEmpty, hreply]

theorem payloadOf_of_refused {chunks : ChunkLists} {e : DecodeError}
    (h : checkChunks inline chunks = .error e) :
    payloadOf source rest (announced inline chunks) = .error e := by
  cases inline with
  | true => simp only [announced, if_true, payloadOf, h]; rfl
  | false => simp only [announced, Bool.false_eq_true, if_false, payloadOf, h]; rfl

/-- What can be put together has a valid layout. -/
theorem valid_of_payloadOf (h : payloadOf source rest (announced inline l.chunks) = .ok payload) :
    l.Valid inline := by
  cases hchecked : checkChunks inline l.chunks with
  | error e =>
    rw [payloadOf_of_refused hchecked] at h
    cases h
  | ok =>
    refine valid_iff.mpr ⟨(checkChunks_ok_iff.mp hchecked).1, fun hinline => ?_⟩
    obtain rfl := hinline
    refine Classical.byContradiction fun hnowhere => ?_
    obtain ⟨hzero, hreply⟩ := not_or.mp hnowhere
    have hnone : messageChunk? source l.chunks = none := by
      rw [messageChunk?_of_not_startsAtZero hzero, Option.not_isSome_iff_eq_none.mp hreply]
      rfl
    simp only [announced, Bool.false_eq_true, if_false, payloadOf, hchecked, hnone] at h
    cases h

/-- A valid layout is put together. -/
theorem payloadOf_of_valid (hexact : source.Exact) (h : l.Valid inline) (rest : Bytes) :
    ∃ payload, payloadOf source rest (announced inline l.chunks) = .ok payload ∧
      l.Outcome source inline rest payload := by
  obtain ⟨hchecked, hsomewhere⟩ := valid_iff.mp h
  cases inline with
  | true =>
    have hchecks : checkChunks true l.chunks = .ok () := checkChunks_ok_iff.mpr ⟨hchecked, nofun⟩
    have hzero : ¬ l.StartsAtZero := fun hzero => by
      obtain ⟨e, he, hposition⟩ := Option.map_eq_some_iff.mp hzero
      exact h.nonzero rfl e (List.mem_of_mem_head? he) hposition
    refine ⟨.message rest (chunkMap source l.chunks), ?_, delivered_chunkMap hexact hchecked hzero,
      rfl⟩
    simp only [announced, if_true, payloadOf, hchecks]
    rfl
  | false =>
    have hchecks : checkChunks false l.chunks = .ok () :=
      checkChunks_ok_iff.mpr ⟨hchecked, fun _ => isEmpty_chunks (hsomewhere rfl)⟩
    have hmessage : ∃ ref map, messageChunk? source l.chunks =
        some (⟨ref, resolve source l.messageSegments⟩, map) ∧ l.Delivered source map := by
      by_cases hzero : l.StartsAtZero
      · exact messageChunk?_of_startsAtZero hexact hchecked hzero
      · obtain ⟨reply, hreply⟩ :=
          Option.isSome_iff_exists.mp ((hsomewhere rfl).resolve_left hzero)
        refine ⟨refOf .reply 0 0 reply.segments, chunkMap source l.chunks, ?_,
          delivered_chunkMap hexact hchecked hzero⟩
        rw [messageChunk?_of_not_startsAtZero hzero, hreply, ListedChunks.messageSegments,
          if_neg hzero, hreply]
        rfl
    obtain ⟨ref, map, hmessage, hdelivered⟩ := hmessage
    cases hresolve : resolve source l.messageSegments with
    | some stream =>
      rw [hresolve] at hmessage
      exact ⟨.message stream map, payloadOf_away hchecks hmessage rest, hdelivered,
        resolve_eq_some_iff.mp hresolve⟩
    | none =>
      rw [hresolve] at hmessage
      refine ⟨.unresolved ref, ?_, rfl, resolve_eq_none_iff.mp hresolve⟩
      simp only [announced, Bool.false_eq_true, if_false, payloadOf, hchecks, hmessage]
      rfl

theorem outcome_of_payloadOf (hexact : source.Exact)
    (h : payloadOf source rest (announced inline l.chunks) = .ok payload) :
    l.Outcome source inline rest payload := by
  obtain ⟨p, hp, houtcome⟩ := payloadOf_of_valid hexact (valid_of_payloadOf h) rest
  cases h.symm.trans hp
  exact houtcome

end PayloadOf

/-! ## Every payload -/

/-- A header that carries a message, or says where it is, announces the chunks of its lists. -/
theorem announced_of_kind {input : Bytes} {strict : Bool} {header : Header}
    (hheader : decodeHeader input strict = .ok header) {inline : Bool}
    (hkind : header.kind = (kindOf inline).toUInt32) :
    ∃ l : ListedChunks, l.Countable ∧ input.between (bodyOffset + 4) header.length = l.octets ∧
      header.body = announced inline l.chunks := by
  rcases decodeHeader_ok hheader with
    ⟨xid, credit, inline', l, rest, hl, rfl, rfl⟩ | ⟨xid, credit, e, rest, -, rfl⟩
  · have hinj : ∀ a b : Bool, (kindOf a).toUInt32 = (kindOf b).toUInt32 → a = b := by decide
    obtain rfl := hinj inline' inline hkind
    exact ⟨l, hl, between_kindOctets .., rfl⟩
  · have herror : ∀ a : Bool, (4 : UInt32) ≠ (kindOf a).toUInt32 := by decide
    exact absurd hkind (herror inline)

/-- **What is put together of a payload.** If the header carries a message or says where it is, then
the message is put together just for valid layouts of the chunks. It is what follows the header or
what the segments of its chunk hold, and it is only left open if the capture lacks one of these
segments. What is handed on besides has one chunk for each position, in increasing order. -/
theorem reassemble_exact {source : ChunkSource} (hexact : source.Exact) {payload : Bytes}
    {strict : Bool} {header : Header} (hheader : decodeHeader payload strict = .ok header)
    {inline : Bool} (hkind : header.kind = (kindOf inline).toUInt32) :
    ∃ l : ListedChunks, l.Countable ∧
      payload.between (bodyOffset + 4) header.length = l.octets ∧
      ((∃ r, reassemble payload source strict = .ok r) ↔ l.Valid inline) ∧
      (∀ r, reassemble payload source strict = .ok r →
        r.1 = header ∧ l.Outcome source inline (payload.drop header.length) r.2) ∧
      ((∃ ref, reassemble payload source strict = .ok (header, .unresolved ref)) ↔
        l.Valid inline ∧ inline = false ∧ ∃ s ∈ l.messageSegments, Lacks source s) := by
  obtain ⟨l, hcountable, hbetween, hbody⟩ := announced_of_kind hheader hkind
  have hreassemble (r : Header × Payload) : reassemble payload source strict = .ok r ↔
      ∃ p, payloadOf source (payload.drop header.length) (announced inline l.chunks) = .ok p ∧
        r = (header, p) := by
    have hmap : reassemble payload source strict =
        (payloadOf source (payload.drop header.length) header.body).map (header, ·) := by
      rw [reassemble, hheader]
      rfl
    rw [hmap, hbody]
    cases payloadOf source (payload.drop header.length) (announced inline l.chunks) with
    | error e => simp [Except.map]
    | ok p => simp [Except.map, eq_comm]
  refine ⟨l, hcountable, hbetween, ?_, fun r hr => ?_, ?_⟩
  · constructor
    · rintro ⟨r, hr⟩
      obtain ⟨p, hp, -⟩ := (hreassemble r).mp hr
      exact valid_of_payloadOf hp
    · intro hvalid
      obtain ⟨p, hp, -⟩ := payloadOf_of_valid hexact hvalid (payload.drop header.length)
      exact ⟨_, (hreassemble _).mpr ⟨p, hp, rfl⟩⟩
  · obtain ⟨p, hp, rfl⟩ := (hreassemble r).mp hr
    exact ⟨rfl, outcome_of_payloadOf hexact hp⟩
  · constructor
    · rintro ⟨ref, hr⟩
      obtain ⟨p, hp, hpair⟩ := (hreassemble _).mp hr
      cases hpair
      exact ⟨valid_of_payloadOf hp, outcome_of_payloadOf hexact hp⟩
    · rintro ⟨hvalid, hinline, hlacks⟩
      obtain ⟨p, hp, houtcome⟩ := payloadOf_of_valid hexact hvalid (payload.drop header.length)
      cases p with
      | message stream map =>
        have hfetched : Fetched source l.messageSegments stream := by
          simpa [hinline] using houtcome.2
        rw [← resolve_eq_none_iff, resolve_eq_some_iff.mpr hfetched] at hlacks
        cases hlacks
      | unresolved ref => exact ⟨ref, (hreassemble _).mpr ⟨_, hp, rfl⟩⟩
      | error e => cases houtcome

/-- A call of eight octets that was sent away, and the transfer that brought it. -/
theorem reassemble_exact_long_call :
    ∃ header, decodeHeader (headerOctets 7 32 false (.ofCall [⟨1, 8, 4096⟩]) ++ []) true =
        .ok header ∧
      ∃ p, reassemble (headerOctets 7 32 false (.ofCall [⟨1, 8, 4096⟩]) ++ [])
          (ChunkStore.fetch ⟨[⟨1, 4096, [0, 0, 0, 1, 0, 0, 0, 2]⟩]⟩) true = .ok (header, p) ∧
        (ListedChunks.ofCall [⟨1, 8, 4096⟩]).Outcome
          (ChunkStore.fetch ⟨[⟨1, 4096, [0, 0, 0, 1, 0, 0, 0, 2]⟩]⟩) false [] p := by
  have hcountable : (ListedChunks.ofCall [⟨1, 8, 4096⟩]).Countable := by
    simp [ListedChunks.Countable, ListedChunks.ofCall]
  have hvalid : (ListedChunks.ofCall [⟨1, 8, 4096⟩]).Valid false :=
    ⟨by decide, by decide, fun h => absurd h Bool.false_ne_true, fun _ => .inl (by decide)⟩
  obtain ⟨header, hheader, -, -, hlength⟩ := decodeHeader_octets hcountable 7 32 false true []
  have hkind : (decodeHeader (headerOctets 7 32 false (.ofCall [⟨1, 8, 4096⟩]) ++ []) true).map
      (·.kind) = .ok 1 := by decide +kernel
  rw [hheader] at hkind
  have hkind : header.kind = (kindOf false).toUInt32 := Except.ok.inj hkind
  obtain ⟨l, hl, hoctets, haccepted, houtcome, -⟩ := reassemble_exact
    (ChunkStore.exact_fetch ⟨[⟨1, 4096, [0, 0, 0, 1, 0, 0, 0, 2]⟩]⟩) hheader hkind
  obtain rfl : l = .ofCall [⟨1, 8, 4096⟩] := by
    refine ListedChunks.octets_inj hl hcountable ?_
    rw [← hoctets, hlength]
    exact between_kindOctets ..
  obtain ⟨⟨h, p⟩, hr⟩ := haccepted.mpr hvalid
  obtain ⟨rfl, hp⟩ := houtcome _ hr
  rw [hlength, List.drop_left] at hp
  exact ⟨h, hheader, p, hr, hp⟩

end NfsWire.Rdma
