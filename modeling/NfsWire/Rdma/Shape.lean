import NfsWire.Rdma.Table
import NfsWire.Xdr.Shape

/-!
# Shape of a transport header

The header of RFC 8166 behind its three leading words. The kinds of header that are not to be
used have their layout here too; the field that announces them refuses them before it is
reached.
-/

namespace NfsWire.Rdma

open Shape

/-- A piece of a peer's memory. -/
def segment : Shape :=
  .struct [("handle", .uint), ("length", .uint), ("offset", .uhyper)]

/-- A chunk that is not tied to a position. -/
def targetChunk : Shape :=
  .struct [("target", arrayOf segment)]

/-- The three lists of chunks. -/
def chunkLists : List (String × Shape) := [
  ("rdma_reads", .chain (.struct [("position", .uint), ("target", segment)])),
  ("rdma_writes", .chain targetChunk),
  ("rdma_reply", .optional targetChunk)]

def errorBody : Shape :=
  .union (code errorCode)
    [(1, "range", .struct [("rdma_vers_low", .uint), ("rdma_vers_high", .uint)]),
      (2, "void", .void)]
    none

/-- All of the header that follows transaction id, version and credit. -/
def body : Shape :=
  .union (.enum messageType true)
    [(0, "rdma_msg", .struct chunkLists),
      (1, "rdma_nomsg", .struct chunkLists),
      (2, "rdma_msgp", .struct (("rdma_align", .uint) :: ("rdma_thresh", .uint) :: chunkLists)),
      (3, "void", .void),
      (4, "rdma_error", errorBody)]
    none

end NfsWire.Rdma
