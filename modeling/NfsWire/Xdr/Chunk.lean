import NfsWire.Bytes

/-!
# Data that travels beside a message

A transport with direct data placement takes bulky items out of the message and moves them
in *chunks* of their own. A chunk map says what was taken out:

* a **read chunk** belongs at one position of the message as it was before the removal;
* **write chunks** are handed out in order to the items of a reply that may be placed
  directly.

A capture may lack the data of a chunk. Then only its reference is known.
-/

namespace NfsWire

/-- Which list of the transport header a chunk comes from. -/
inductive ChunkKind where
  | read
  | write
  | reply
  deriving DecidableEq, Repr, Inhabited

def ChunkKind.name : ChunkKind → String
  | .read => "read"
  | .write => "write"
  | .reply => "reply"

/-- What a transport header says about one chunk. -/
structure ChunkRef where
  kind : ChunkKind
  /-- Index of the chunk in its list. -/
  index : Nat
  /-- Position in the whole message; zero for write and reply chunks. -/
  position : UInt32
  /-- Octets the chunk carries. -/
  length : UInt32
  /-- The memory handles of its segments. -/
  handles : List UInt32
  deriving DecidableEq, Repr, Inhabited

/-- A chunk, with its data if the capture has it. -/
structure Chunk where
  ref : ChunkRef
  data : Option Bytes
  deriving DecidableEq, Repr, Inhabited

/-- All that was taken out of one message. -/
structure ChunkMap where
  reads : List Chunk := []
  writes : List Chunk := []
  deriving DecidableEq, Repr, Inhabited

namespace ChunkMap

def isEmpty (m : ChunkMap) : Bool := m.reads.isEmpty && m.writes.isEmpty

/-- The first read chunk that belongs at `position`. -/
def readAt? (m : ChunkMap) (position : Nat) : Option Chunk :=
  m.reads.find? (·.ref.position.toNat == position)

/-- References of the chunks whose data is missing, reads before writes. -/
def placeholders (m : ChunkMap) : List ChunkRef :=
  ((m.reads ++ m.writes).filter (·.data.isNone)).map (·.ref)

end ChunkMap

end NfsWire
