import NfsWire.Rdma.ChunkStore
import NfsWire.Rdma.Header

/-!
# From payloads to messages

The payload of a transfer is a transport header and possibly an inline message. This module
puts the message together and says where the items belong that were taken out of it.

A header is refused when its chunks make no sense: positions must be multiples of four and
must not decrease along the read list; position zero means the whole message and has no place
beside an inline one; and a header without an inline message has to say where the message is.
A long call is in the read chunk of position zero, a long reply in the reply chunk.
-/

namespace NfsWire.Rdma

/-- The message of one payload. -/
inductive Payload where
  /-- The message, and what was taken out of it. -/
  | message (stream : Bytes) (chunks : ChunkMap)
  /-- The message is in a chunk that the capture lacks. -/
  | unresolved (ref : ChunkRef)
  /-- There is no message. -/
  | error (e : PeerError)
  deriving DecidableEq, Repr, Inhabited

/-! ## Checks -/

/-- A header that the protocol forbids. -/
def violation (path : FieldPath) (offset : Nat) (what : Violation) : DecodeError :=
  { protocol := some .rdma, fault := .violation what, path, offset }

/-- What is wrong with a read chunk that follows position `previous`. -/
def readFault? (inline : Bool) (previous : Option UInt32) (position : UInt32) : Option Violation :=
  if position % 4 ≠ 0 then some (.chunkAlignment position)
  else if position = 0 ∧ inline then some .messageChunkInline
  else
    match previous with
    | some p => if position < p then some (.chunkOrder position p) else none
    | none => none

/-- Check the read chunks, the first of which has index `i` and follows `previous`. -/
def checkReads (inline : Bool) : (i : Nat) → (previous : Option UInt32) → List ReadChunk →
    Except DecodeError Unit
  | _, _, [] => .ok ()
  | i, previous, c :: rest =>
    match readFault? inline previous c.position with
    | some what =>
      .error (violation [.name "rdma_reads", .index i, .name "position"] c.offset what)
    | none => checkReads inline (i + 1) (some c.position) rest

/-- Check the chunks of a header with or without an inline message. -/
def checkChunks (inline : Bool) (chunks : ChunkLists) : Except DecodeError Unit := do
  checkReads inline 0 none chunks.reads
  if !inline ∧ chunks.isEmpty then
    .error (violation [.name "rdma_nomsg"] bodyOffset .noChunk)

/-! ## Chunks of the message -/

/-- The octets of segments, in order, if the source has all of them. -/
def resolve (source : ChunkSource) (segments : List Segment) : Option Bytes :=
  (segments.mapM fun s => source s.handle s.offset s.length).map List.flatten

/-- What the header says about a chunk. -/
def refOf (kind : ChunkKind) (index : Nat) (position : UInt32) (segments : List Segment) :
    ChunkRef :=
  { kind, index, position, length := segmentsLength segments, handles := segments.map (·.handle) }

/-- The read chunks, the first of which has index `i`. -/
def readChunks (source : ChunkSource) : (i : Nat) → List ReadChunk → List Chunk
  | _, [] => []
  | i, c :: rest =>
    ⟨refOf .read i c.position c.segments, resolve source c.segments⟩ ::
      readChunks source (i + 1) rest

/-- The write chunks, the first of which has index `i`. -/
def writeChunks (source : ChunkSource) : (i : Nat) → List WriteChunk → List Chunk
  | _, [] => []
  | i, c :: rest =>
    ⟨refOf .write i 0 c.segments, resolve source c.segments⟩ :: writeChunks source (i + 1) rest

/-- All that was taken out of an inline message. -/
def chunkMap (source : ChunkSource) (chunks : ChunkLists) : ChunkMap :=
  { reads := readChunks source 0 chunks.reads, writes := writeChunks source 0 chunks.writes }

/-- The chunk that holds the whole message, and all that was taken out of that. -/
def messageChunk? (source : ChunkSource) (chunks : ChunkLists) : Option (Chunk × ChunkMap) :=
  let writes := writeChunks source 0 chunks.writes
  match chunks.reads, chunks.reply with
  | first :: rest, reply =>
    if first.position = 0 then
      some (⟨refOf .read 0 0 first.segments, resolve source first.segments⟩,
        { reads := readChunks source 1 rest, writes })
    else
      reply.map fun r => (⟨refOf .reply 0 0 r.segments, resolve source r.segments⟩,
        { reads := readChunks source 0 (first :: rest), writes })
  | [], reply =>
    reply.map fun r => (⟨refOf .reply 0 0 r.segments, resolve source r.segments⟩,
      { reads := [], writes })

/-! ## Messages -/

/-- The message that a header announces, given the octets behind the header. -/
def payloadOf (source : ChunkSource) (rest : Bytes) : Body → Except DecodeError Payload
  | .error e => .ok (.error e)
  | .inline chunks => do
    checkChunks true chunks
    return .message rest (chunkMap source chunks)
  | .away chunks => do
    checkChunks false chunks
    match messageChunk? source chunks with
    | none => .error (violation [.name "rdma_nomsg"] bodyOffset .noMessageChunk)
    | some (⟨_, some stream⟩, map) => return .message stream map
    | some (⟨ref, none⟩, _) => return .unresolved ref

/-- Read the transport header of a payload and put its message together. -/
def reassemble (payload : Bytes) (source : ChunkSource) (strict : Bool) :
    Except DecodeError (Header × Payload) := do
  let header ← decodeHeader payload strict
  return (header, ← payloadOf source (payload.drop header.length) header.body)

/-- The transaction id of a message must be that of its transport header. -/
def checkXid (header : Header) (xid : UInt32) : Except DecodeError Unit :=
  if header.xid = xid then .ok ()
  else .error (violation [.name "rdma_xid"] 0 (.transactionId header.xid xid))

end NfsWire.Rdma
