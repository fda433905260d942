import NfsWire.Table

/-!
# Codes of RPC over RDMA, version 1

The constants of RFC 8166 that transport headers refer to.
-/

namespace NfsWire.Rdma

/-- The version of the transport protocol that is understood. -/
def version : UInt32 := 1

/-- Why a peer could not handle a transport header. -/
def errorCode : Table := {
  protocol := .rdma
  name := "rpc_rdma_errcode"
  entries := [
    ⟨1, "ERR_VERS", .fixed⟩,
    ⟨2, "ERR_CHUNK", .normal⟩] }

/-- Kinds of transport headers. -/
def messageType : Table := {
  protocol := .rdma
  name := "rdma_proc"
  entries := [
    ⟨0, "RDMA_MSG", .fixed⟩,
    ⟨1, "RDMA_NOMSG", .fixed⟩,
    ⟨2, "RDMA_MSGP", .notToBeUsed⟩,
    ⟨3, "RDMA_DONE", .notToBeUsed⟩,
    ⟨4, "RDMA_ERROR", .fixed⟩] }

def tables : List Table := [errorCode, messageType]

end NfsWire.Rdma
