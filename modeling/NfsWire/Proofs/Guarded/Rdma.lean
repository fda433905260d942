import NfsWire.Proofs.Guarded.Reader
import NfsWire.Proofs.Rdma.Coverage
import NfsWire.Rdma.Reassembly

/-!
# Guarded reassembly

What a capture has of a peer's memory is found piece by piece. The bounds of the slice that is taken
out of a piece are differences of addresses, and the address behind a piece has to fit a word; that
is what is asked of the pieces, and all that is (`fetch_eq`). The inline message of a transfer is a
slice of its payload that starts behind the header.
-/

namespace NfsWire.Guarded

/-! ## Captured memory -/

/-- The octets from `address` up to `stop`, taken piece by piece. The walk comes to an end within
`fuel` pieces. -/
def walk (pieces : List Rdma.Piece) (stop : Nat) : (fuel address : Nat) → Option (Option Bytes)
  | 0, _ => none
  | fuel + 1, address =>
    if address < stop then
      match Rdma.ChunkStore.pieceAt? pieces address with
      | none => some none
      | some p => do
        let pieceStop ← word (p.start + p.data.length)
        if pieceStop ≤ address then return none
        else
          let start ← minus address p.start
          let upto ← minus (min pieceStop stop) p.start
          let data ← slice p.data start upto
          return (← walk pieces stop fuel (p.start + upto)).map (data ++ ·)
    else some (some [])

/-- Access to transferred data, or nothing where an operation is out of range. -/
abbrev Source :=
  (handle : UInt32) → (offset : UInt64) → (length : UInt32) → Option (Option Bytes)

/-- The `length` octets at `offset` of a handle. -/
def fetch (s : Rdma.ChunkStore) : Source := fun handle offset length =>
  let pieces := s.region handle
  let stop := offset.toNat + length.toNat
  if pieces.isEmpty ∨ UInt64.size ≤ stop then some none
  else walk pieces stop (length.toNat + 1) offset.toNat

theorem walk_eq {pieces : List Rdma.Piece} (hpieces : ∀ p ∈ pieces, p.stop < UInt64.size)
    {stop fuel address : Nat} (hfuel : stop - address < fuel) :
    walk pieces stop fuel address = some (Rdma.ChunkStore.walk pieces address stop) := by
  induction fuel generalizing address with
  | zero => omega
  | succ fuel ih =>
    rw [walk, Rdma.ChunkStore.walk]
    split
    next hlt =>
      cases hpiece : Rdma.ChunkStore.pieceAt? pieces address with
      | none => rfl
      | some p =>
        obtain ⟨hp, hstart, -⟩ := Rdma.ChunkStore.pieceAt?_eq_some hpiece
        have hword : word (p.start + p.data.length) = some p.stop := word_of_lt (hpieces p hp)
        have hstop : p.stop = p.start + p.data.length := rfl
        simp only [hword, Option.bind_eq_bind, Option.bind_some]
        by_cases hreach : address < p.stop
        · have hnext : p.start + (min p.stop stop - p.start) = min p.stop stop := by omega
          have hlength : min p.stop stop - p.start - (address - p.start) =
              min p.stop stop - address := by omega
          rw [if_neg (Nat.not_le_of_lt hreach), dif_pos hreach, minus_of_le hstart,
            minus_of_le (by omega)]
          simp only [Option.bind_some]
          rw [slice_of_le (by omega) (by omega), hnext, hlength]
          simp only [Option.bind_some]
          rw [ih (by omega)]
          rfl
        · rw [if_pos (Nat.le_of_not_lt hreach), dif_neg hreach]
          rfl
    next => rfl

/-- **No operation of a fetch is out of range**, and the walk over the pieces ends. -/
theorem fetch_eq {s : Rdma.ChunkStore} (hs : ∀ p ∈ s.pieces, p.stop < UInt64.size)
    (handle : UInt32) (offset : UInt64) (length : UInt32) :
    fetch s handle offset length = some (s.fetch handle offset length) := by
  unfold fetch Rdma.ChunkStore.fetch
  dsimp only
  split
  · rfl
  · exact walk_eq (fun p hp => hs p (List.mem_filter.mp hp).1) (by omega)

/-! ## Chunks -/

/-- The octets of segments, in order, if the source has all of them. -/
def resolve (source : Source) : List Rdma.Segment → Option (Option Bytes)
  | [] => some (some [])
  | s :: rest => do
    match ← source s.handle s.offset s.length with
    | none => return none
    | some data => return (← resolve source rest).map (data ++ ·)

/-- The read chunks, the first of which has index `i`. -/
def readChunks (source : Source) : (i : Nat) → List Rdma.ReadChunk → Option (List Chunk)
  | _, [] => some []
  | i, c :: rest => do
    let data ← resolve source c.segments
    return ⟨Rdma.refOf .read i c.position c.segments, data⟩ :: (← readChunks source (i + 1) rest)

/-- The write chunks, the first of which has index `i`. -/
def writeChunks (source : Source) : (i : Nat) → List Rdma.WriteChunk → Option (List Chunk)
  | _, [] => some []
  | i, c :: rest => do
    let data ← resolve source c.segments
    return ⟨Rdma.refOf .write i 0 c.segments, data⟩ :: (← writeChunks source (i + 1) rest)

/-- All that was taken out of a message, where the read chunks start with index `i`. -/
def chunkMap (source : Source) (i : Nat) (reads : List Rdma.ReadChunk)
    (writes : List Rdma.WriteChunk) : Option ChunkMap := do
  return { reads := ← readChunks source i reads, writes := ← writeChunks source 0 writes }

/-- The chunk that holds the whole message, and all that was taken out of that. -/
def messageChunk? (source : Source) (chunks : Rdma.ChunkLists) :
    Option (Option (Chunk × ChunkMap)) :=
  let replied (r : Rdma.WriteChunk) : Option (Option (Chunk × ChunkMap)) := do
    let data ← resolve source r.segments
    return some (⟨Rdma.refOf .reply 0 0 r.segments, data⟩,
      ← chunkMap source 0 chunks.reads chunks.writes)
  match chunks.reads, chunks.reply with
  | first :: rest, reply =>
    if first.position = 0 then do
      let data ← resolve source first.segments
      return some (⟨Rdma.refOf .read 0 0 first.segments, data⟩,
        ← chunkMap source 1 rest chunks.writes)
    else
      match reply with
      | some r => replied r
      | none => some none
  | [], some r => replied r
  | [], none => some none

/-- The message that a header announces, given the octets behind the header. -/
def payloadOf (source : Source) (rest : Bytes) : Rdma.Body →
    Option (Except DecodeError Rdma.Payload)
  | .error e => some (.ok (.error e))
  | .inline chunks =>
    match Rdma.checkChunks true chunks with
    | .error e => some (.error e)
    | .ok () => do return .ok (.message rest (← chunkMap source 0 chunks.reads chunks.writes))
  | .away chunks =>
    match Rdma.checkChunks false chunks with
    | .error e => some (.error e)
    | .ok () => do
      match ← messageChunk? source chunks with
      | none =>
        return .error (Rdma.violation [.name "rdma_nomsg"] Rdma.bodyOffset .noMessageChunk)
      | some (⟨_, some stream⟩, map) => return .ok (.message stream map)
      | some (⟨ref, none⟩, _) => return .ok (.unresolved ref)

section Chunks

variable {source : Source} {plain : Rdma.ChunkSource}
  (h : ∀ handle offset length, source handle offset length = some (plain handle offset length))

include h

theorem resolve_eq (segments : List Rdma.Segment) :
    resolve source segments = some (Rdma.resolve plain segments) := by
  induction segments with
  | nil => rfl
  | cons s rest ih =>
    rw [resolve, h, ih]
    unfold Rdma.resolve
    rw [List.mapM_cons]
    cases plain s.handle s.offset s.length with
    | none => rfl
    | some data =>
      cases rest.mapM fun s => plain s.handle s.offset s.length with
      | none => rfl
      | some more => rfl

theorem readChunks_eq (i : Nat) (chunks : List Rdma.ReadChunk) :
    readChunks source i chunks = some (Rdma.readChunks plain i chunks) := by
  induction chunks generalizing i with
  | nil => rfl
  | cons c rest ih =>
    rw [readChunks, resolve_eq h, ih]
    rfl

theorem writeChunks_eq (i : Nat) (chunks : List Rdma.WriteChunk) :
    writeChunks source i chunks = some (Rdma.writeChunks plain i chunks) := by
  induction chunks generalizing i with
  | nil => rfl
  | cons c rest ih =>
    rw [writeChunks, resolve_eq h, ih]
    rfl

theorem chunkMap_eq (i : Nat) (reads : List Rdma.ReadChunk) (writes : List Rdma.WriteChunk) :
    chunkMap source i reads writes = some {
      reads := Rdma.readChunks plain i reads
      writes := Rdma.writeChunks plain 0 writes } := by
  rw [chunkMap, readChunks_eq h, writeChunks_eq h]
  rfl

theorem messageChunk?_eq (chunks : Rdma.ChunkLists) :
    messageChunk? source chunks = some (Rdma.messageChunk? plain chunks) := by
  obtain ⟨reads, writes, reply⟩ := chunks
  unfold messageChunk? Rdma.messageChunk?
  simp only [resolve_eq h, chunkMap_eq h, Option.bind_eq_bind, Option.bind_some, Option.pure_def]
  cases reads with
  | nil =>
    cases reply with
    | none => rfl
    | some r => rfl
  | cons first rest =>
    dsimp only
    split
    · rfl
    · cases reply with
      | none => rfl
      | some r => rfl

theorem payloadOf_eq (rest : Bytes) (body : Rdma.Body) :
    payloadOf source rest body = some (Rdma.payloadOf plain rest body) := by
  cases body with
  | error e => rfl
  | inline chunks =>
    rw [payloadOf, Rdma.payloadOf, chunkMap_eq h]
    cases Rdma.checkChunks true chunks with
    | error e => rfl
    | ok _ => rfl
  | away chunks =>
    rw [payloadOf, Rdma.payloadOf, messageChunk?_eq h]
    cases Rdma.checkChunks false chunks with
    | error e => rfl
    | ok _ =>
      show _ = some (match Rdma.messageChunk? plain chunks with
        | none => _
        | some (⟨_, some stream⟩, map) => _
        | some (⟨ref, none⟩, _) => _)
      obtain _ | ⟨⟨ref, _ | stream⟩, map⟩ := Rdma.messageChunk? plain chunks <;> rfl

end Chunks

/-! ## Headers -/

/-- The fields of a header: transaction id, version, credit and body. -/
def readFields : GuardedReader (UInt32 × UInt32 × UInt32 × Value) := do
  let k := GuardedReader.primitives
  let xid ← k.uint
  let start ← k.offset
  let vers ← k.uint
  if vers ≠ Rdma.version then
    k.within (.name "rdma_vers") (k.failAt start (.violation (.transportVersion vers)))
  let credit ← k.uint
  let content ← k.within (.name "rdma_body") (k.decode Rdma.body)
  return (xid, vers, credit, content)

/-- Read the transport header at the start of a payload. -/
def decodeTransport (input : Bytes) (strict : Bool) : Option (Except DecodeError Rdma.Header) := do
  match ← readFields.readAt { strict } input 0 with
  | .error e => return .error (e.inProtocol .rdma)
  | .ok ((xid, vers, credit, content), length) =>
    match Rdma.bodyOf content with
    | .error e => return .error e
    | .ok (kind, body) =>
      return .ok {
        xid, version := vers, credit, kind, body
        record := .struct [("rdma_xid", .uint xid), ("rdma_vers", .uint vers),
          ("rdma_credit", .uint credit), ("rdma_body", content)]
        length }

/-- Read the transport header of a payload and put its message together. -/
def reassemble (payload : Bytes) (source : Source) (strict : Bool) :
    Option (Except DecodeError (Rdma.Header × Rdma.Payload)) := do
  match ← decodeTransport payload strict with
  | .error e => return .error e
  | .ok header =>
    let rest ← slice payload header.length payload.length
    return (← payloadOf source rest header.body).map (header, ·)

theorem guards_readFields : Rdma.readFields.Guards readFields := by
  have h := Reader.related_guards
  refine h.bind h.uint fun xid => h.bind h.offset fun start => h.bind h.uint fun vers => ?_
  have hrest := h.bind h.uint fun credit =>
    h.bind (h.within (.name "rdma_body") (Reader.guards_decode Rdma.body)) fun content =>
      h.pure (xid, vers, credit, content)
  dsimp only
  split
  · exact h.bind (h.within _ (h.failAt start rfl)) fun _ => hrest
  · exact hrest

theorem decodeTransport_eq (input : Bytes) (strict : Bool) :
    decodeTransport input strict = some (Rdma.decodeHeader input strict) := by
  unfold decodeTransport Rdma.decodeHeader
  obtain ⟨fields, c, hread, -, hguarded⟩ | ⟨e, c, hread, hguarded⟩ :=
    guards_readFields.readAt { strict } input 0
  · rw [hread, hguarded]
    obtain ⟨xid, vers, credit, content⟩ := fields
    simp only [Option.bind_eq_bind, Option.bind_some]
    cases Rdma.bodyOf content with
    | error e => rfl
    | ok body => rfl
  · rw [hread, hguarded]
    rfl

/-- A transport header lies in its payload. -/
theorem length_le {input : Bytes} {strict : Bool} {header : Rdma.Header}
    (h : Rdma.decodeHeader input strict = .ok header) : header.length ≤ input.length := by
  unfold Rdma.decodeHeader at h
  obtain ⟨fields, c, hread, hc, -⟩ | ⟨e, c, hread, -⟩ :=
    guards_readFields.readAt { strict } input 0
  · rw [hread] at h
    obtain ⟨xid, vers, credit, content⟩ := fields
    dsimp only at h
    split at h
    · cases h
    · cases h
      exact hc.inside
  · rw [hread] at h
    cases h

/-- **No operation on a transfer is out of range**, where none is on what the capture has. -/
theorem reassemble_eq {source : Source} {plain : Rdma.ChunkSource}
    (h : ∀ handle offset length, source handle offset length = some (plain handle offset length))
    (payload : Bytes) (strict : Bool) :
    reassemble payload source strict = some (Rdma.reassemble payload plain strict) := by
  unfold reassemble Rdma.reassemble
  rw [decodeTransport_eq]
  cases hheader : Rdma.decodeHeader payload strict with
  | error e => rfl
  | ok header =>
    simp only [Option.bind_eq_bind, Option.bind_some, slice_from (length_le hheader),
      payloadOf_eq h]
    show _ = some (Except.bind (Rdma.payloadOf plain (payload.drop header.length) header.body) _)
    cases Rdma.payloadOf plain (payload.drop header.length) header.body with
    | error e => rfl
    | ok message => rfl

end NfsWire.Guarded
