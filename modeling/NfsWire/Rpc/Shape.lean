import NfsWire.Rpc.Table
import NfsWire.Xdr.Shape

/-!
# Shapes of remote procedure calls

The message of RFC 5531 up to, and not including, the arguments or results of its procedure.
-/

namespace NfsWire.Rpc

open Shape

/-- A credential or verifier whose content is known to its flavor only. -/
def opaqueAuth : Shape :=
  .struct [("flavor", code authFlavor), ("body", octetsUpTo maxAuthBytes)]

/-- The content of a system credential. -/
def authSysParms : Shape :=
  .struct [
    ("stamp", .uint),
    ("machinename", textUpTo maxMachineName),
    ("uid", .uint),
    ("gid", .uint),
    ("gids", arrayUpTo .uint maxAuthGids)]

/-- The versions a server supports. -/
def mismatchInfo : Shape :=
  .struct [("low", .uint), ("high", .uint)]

def callBody : Shape :=
  .struct [
    ("rpcvers", .uint),
    ("prog", .uint),
    ("vers", .uint),
    ("proc", .uint),
    ("cred", opaqueAuth),
    ("verf", opaqueAuth)]

def acceptedReply : Shape :=
  .struct [
    ("verf", opaqueAuth),
    ("reply_data", .union (code acceptStat)
      [(0, "results", .void), (2, "mismatch_info", mismatchInfo)]
      (some ("void", .void)))]

def deniedReply : Shape :=
  .union (code rejectStat)
    [(0, "mismatch_info", mismatchInfo), (1, "stat", code authStat)]
    none

def replyBody : Shape :=
  .union (code replyStat) [(0, "areply", acceptedReply), (1, "rreply", deniedReply)] none

/-- A message up to the arguments or results. -/
def message : Shape :=
  .struct [
    ("xid", .uint),
    ("body", .union (code msgType) [(0, "cbody", callBody), (1, "rbody", replyBody)] none)]

end NfsWire.Rpc
