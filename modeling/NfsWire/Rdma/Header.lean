import NfsWire.Rdma.Shape
import NfsWire.Xdr.Decode

/-!
# Transport headers

A header of RPC over RDMA has three words, its transaction id, version and credit, and then a
body that either carries an inline message, announces that there is none, or reports an error.
Both kinds of message come with three lists of chunks:

* the **read list**, whose entries name a position in the message each. Neighbouring entries
  of one position are the segments of one read chunk;
* the **write list**, and
* at most one **reply chunk**.
-/

namespace NfsWire.Rdma

/-! ## Chunks -/

/-- A piece of a peer's memory. -/
structure Segment where
  handle : UInt32
  length : UInt32
  offset : UInt64
  deriving DecidableEq, Repr, Inhabited

/-- The octets that segments describe together. -/
def octetsIn (segments : List Segment) : Nat :=
  @List.sum Nat _ Zero.ofOfNat0 (segments.map (·.length.toNat))

/-- As many of them as a word of 32 bits says. -/
def segmentsLength (segments : List Segment) : UInt32 :=
  UInt32.ofNat (min (octetsIn segments) (UInt32.size - 1))

/-- One entry of the read list. -/
structure ReadEntry where
  position : UInt32
  segment : Segment
  deriving DecidableEq, Repr, Inhabited

/-- Neighbouring entries of the read list that share a position. -/
structure ReadChunk where
  position : UInt32
  /-- Where the position of the first entry lies in the header. -/
  offset : Nat
  segments : List Segment
  deriving DecidableEq, Repr, Inhabited

/-- A chunk of the write list, or the reply chunk. -/
structure WriteChunk where
  segments : List Segment
  deriving DecidableEq, Repr, Inhabited

/-- All chunks of a header. -/
structure ChunkLists where
  reads : List ReadChunk
  writes : List WriteChunk
  reply : Option WriteChunk
  deriving DecidableEq, Repr, Inhabited

def ReadChunk.length (c : ReadChunk) : UInt32 := segmentsLength c.segments

def WriteChunk.length (c : WriteChunk) : UInt32 := segmentsLength c.segments

def ChunkLists.isEmpty (c : ChunkLists) : Bool :=
  c.reads.isEmpty && c.writes.isEmpty && c.reply.isNone

/-- Where the body starts: behind three words. -/
def bodyOffset : Nat := 12

/-- Where the position of the read list's entry number `k` lies. Behind the discriminant of
the body, each entry has a flag, its position and its segment, 24 octets in all. -/
def entryOffset (k : Nat) : Nat := bodyOffset + 4 + k * 24 + 4

/-- Entries, the first of which is number `k` of the read list, as chunks. -/
def groupReads : (k : Nat) → List ReadEntry → List ReadChunk
  | _, [] => []
  | k, e :: rest =>
    match groupReads (k + 1) rest with
    | [] => [⟨e.position, entryOffset k, [e.segment]⟩]
    | c :: cs =>
      if c.position = e.position then ⟨e.position, entryOffset k, e.segment :: c.segments⟩ :: cs
      else ⟨e.position, entryOffset k, [e.segment]⟩ :: c :: cs

/-! ## Headers -/

/-- Why a peer could not handle a header. -/
inductive PeerError where
  /-- It supports other versions, from the lowest to the highest given. -/
  | version (low high : UInt32)
  | chunk
  deriving DecidableEq, Repr, Inhabited

/-- What a header announces. -/
inductive Body where
  /-- A message follows the header. -/
  | inline (chunks : ChunkLists)
  /-- The message is in a chunk. -/
  | away (chunks : ChunkLists)
  | error (e : PeerError)
  deriving DecidableEq, Repr, Inhabited

/-- A transport header. -/
structure Header where
  xid : UInt32
  version : UInt32
  credit : UInt32
  /-- The code of the kind of header. -/
  kind : UInt32
  body : Body
  /-- All fields of the header. -/
  record : Value
  /-- Octets the header takes; an inline message starts there. -/
  length : Nat
  deriving Repr, Inhabited

/-! ## Picking the header apart -/

def segmentOf? (v : Value) : Option Segment := do
  return {
    handle := ← (← v.get? "handle").toUInt32?
    length := ← (← v.get? "length").toUInt32?
    offset := ← (← v.get? "offset").toUInt64? }

def readEntryOf? (v : Value) : Option ReadEntry := do
  return {
    position := ← (← v.get? "position").toUInt32?
    segment := ← segmentOf? (← v.get? "target") }

def writeChunkOf? (v : Value) : Option WriteChunk := do
  return { segments := ← (← (← v.get? "target").items?).mapM segmentOf? }

/-- The reply chunk, which may be absent. -/
def replyChunkOf? : Value → Option (Option WriteChunk)
  | .optional (some v) => (writeChunkOf? v).map some
  | _ => some none

def chunkListsOf? (v : Value) : Option ChunkLists := do
  let entries ← (← (← v.get? "rdma_reads").items?).mapM readEntryOf?
  let writes ← (← (← v.get? "rdma_writes").items?).mapM writeChunkOf?
  let reply ← replyChunkOf? (← v.get? "rdma_reply")
  return { reads := groupReads 0 entries, writes, reply }

/-- The error for a tree that has not what the body of a header has at a path of names. Reading by
the shape of the body yields none such. -/
def notAHeader (names : List String) : DecodeError :=
  { protocol := some .rdma, fault := .mismatch .transportHeader,
    path := ("rdma_body" :: names).map .name, offset := bodyOffset }

/-- The chunks found in an arm of that name, or the error that they are not there. -/
def chunksOf (arm : String) (v : Value) : Except DecodeError ChunkLists :=
  match chunkListsOf? v with
  | some chunks => .ok chunks
  | none => .error (notAHeader [arm])

def peerErrorOf (v : Value) : Except DecodeError PeerError :=
  match v.union? with
  | none => .error (notAHeader ["rdma_error"])
  | some (d, _, content) =>
    if d.toUInt32? = some 1 then
      match (content.get? "rdma_vers_low").bind (·.toUInt32?),
        (content.get? "rdma_vers_high").bind (·.toUInt32?) with
      | some low, some high => .ok (.version low high)
      | _, _ => .error (notAHeader ["rdma_error", "range"])
    else .ok .chunk

/-- Code and content of the body of a header. -/
def bodyOf (v : Value) : Except DecodeError (UInt32 × Body) := do
  match v.union?.bind fun (d, _, content) => d.toUInt32?.map (·, content) with
  | none => throw (notAHeader [])
  | some (kind, content) =>
    if kind = 0 then return (kind, .inline (← chunksOf "rdma_msg" content))
    else if kind = 1 then return (kind, .away (← chunksOf "rdma_nomsg" content))
    else if kind = 4 then return (kind, .error (← peerErrorOf content))
    else throw (notAHeader [])

/-! ## Reading -/

/-- The fields of a header: transaction id, version, credit and body. -/
def readFields : Reader (UInt32 × UInt32 × UInt32 × Value) := do
  let xid ← Reader.uint
  let start ← Reader.offset
  let vers ← Reader.uint
  if vers ≠ version then
    Reader.within (.name "rdma_vers") (Reader.failAt start (.violation (.transportVersion vers)))
  let credit ← Reader.uint
  let content ← Reader.within (.name "rdma_body") body.decode
  return (xid, vers, credit, content)

/-- Read the transport header at the start of a payload. -/
def decodeHeader (input : Bytes) (strict : Bool) : Except DecodeError Header :=
  match readFields { strict } (Cursor.at input 0) with
  | .error e _ => .error (e.inProtocol .rdma)
  | .ok (xid, vers, credit, content) c =>
    match bodyOf content with
    | .error e => .error e
    | .ok (kind, body) =>
      .ok {
        xid, version := vers, credit, kind, body
        record := .struct [("rdma_xid", .uint xid), ("rdma_vers", .uint vers),
          ("rdma_credit", .uint credit), ("rdma_body", content)]
        length := c.offset }

end NfsWire.Rdma
