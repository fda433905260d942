import NfsWire.Bytes

/-!
# Captured memory transfers

A capture sees the transfers of chunk data apart from the messages they belong to. The store
keeps them as *pieces*, each a run of octets at an address of a memory handle; a later piece
at the same address replaces the earlier one.

Data is fetched by address range. The walk over the pieces goes from address to address: at
each it takes the piece that starts last, but not behind the address, and goes on where that
piece ends. It gives up where that piece does not reach.
-/

namespace NfsWire.Rdma

/-- Access to transferred data: the `length` octets at `offset` of the memory `handle`, if the
capture has them. -/
abbrev ChunkSource := (handle : UInt32) → (offset : UInt64) → (length : UInt32) → Option Bytes

/-- The source of a capture without transfers. -/
def ChunkSource.none : ChunkSource := fun _ _ _ => Option.none

/-- Octets at an address of a memory handle. -/
structure Piece where
  handle : UInt32
  offset : UInt64
  data : Bytes
  deriving DecidableEq, Repr, Inhabited

/-- The first address of the piece. -/
def Piece.start (p : Piece) : Nat := p.offset.toNat

/-- The address behind the piece. -/
def Piece.stop (p : Piece) : Nat := p.start + p.data.length

/-- All pieces of a capture. -/
structure ChunkStore where
  pieces : List Piece := []
  deriving DecidableEq, Repr, Inhabited

namespace ChunkStore

def isEmpty (s : ChunkStore) : Bool := s.pieces.isEmpty

/-- Add a piece in place of the one at the same address, if there is one. -/
def insert (s : ChunkStore) (p : Piece) : ChunkStore where
  pieces := s.pieces.filter (fun q => !(q.handle == p.handle && q.offset == p.offset)) ++ [p]

/-- The pieces of a handle. -/
def region (s : ChunkStore) (handle : UInt32) : List Piece :=
  s.pieces.filter (·.handle == handle)

/-- Of two pieces, the one that starts later. -/
def later (p : Piece) : Option Piece → Piece
  | none => p
  | some q => if p.start ≤ q.start then q else p

/-- The piece that starts last among those that do not start behind `address`. -/
def pieceAt? (pieces : List Piece) (address : Nat) : Option Piece :=
  pieces.foldr (fun p best => if p.start ≤ address then some (later p best) else best) none

/-- The octets from `address` up to `stop`, taken piece by piece. -/
def walk (pieces : List Piece) (address stop : Nat) : Option Bytes :=
  if _h : address < stop then
    match pieceAt? pieces address with
    | none => none
    | some p =>
      if _hp : address < p.stop then
        (walk pieces (min p.stop stop) stop).map
          ((p.data.drop (address - p.start)).take (min p.stop stop - address) ++ ·)
      else none
  else some []
termination_by stop - address
decreasing_by omega

/-- The `length` octets at `offset` of a handle. A range beyond the last address is never
there, and neither is any range of a handle without pieces. -/
def fetch (s : ChunkStore) : ChunkSource := fun handle offset length =>
  let pieces := s.region handle
  let stop := offset.toNat + length.toNat
  if pieces.isEmpty ∨ UInt64.size ≤ stop then none
  else walk pieces offset.toNat stop

end ChunkStore

end NfsWire.Rdma
