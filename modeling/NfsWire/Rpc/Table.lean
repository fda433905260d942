import NfsWire.Table

/-!
# Codes and limits of remote procedure calls

The constants of RFC 5531 (ONC RPC version 2) that messages refer to.
-/

namespace NfsWire.Rpc

/-- The version of the call protocol that is understood. -/
def version : UInt32 := 2

/-- The most octets of a credential or verifier. -/
def maxAuthBytes : UInt32 := 400

/-- The longest machine name in a system credential. -/
def maxMachineName : UInt32 := 255

/-- The most group ids in a system credential. -/
def maxAuthGids : UInt32 := 16

/-- The flavor of a system credential. -/
def authSys : UInt32 := 1

/-- Calls and replies. -/
def msgType : Table := {
  protocol := .rpc
  name := "msg_type"
  entries := [
    ⟨0, "CALL", .normal⟩,
    ⟨1, "REPLY", .normal⟩] }

/-- Whether the call was accepted. -/
def replyStat : Table := {
  protocol := .rpc
  name := "reply_stat"
  entries := [
    ⟨0, "MSG_ACCEPTED", .normal⟩,
    ⟨1, "MSG_DENIED", .normal⟩] }

/-- How an accepted call fared. -/
def acceptStat : Table := {
  protocol := .rpc
  name := "accept_stat"
  entries := [
    ⟨0, "SUCCESS", .normal⟩,
    ⟨1, "PROG_UNAVAIL", .normal⟩,
    ⟨2, "PROG_MISMATCH", .normal⟩,
    ⟨3, "PROC_UNAVAIL", .normal⟩,
    ⟨4, "GARBAGE_ARGS", .normal⟩,
    ⟨5, "SYSTEM_ERR", .normal⟩] }

/-- Why a call was denied. -/
def rejectStat : Table := {
  protocol := .rpc
  name := "reject_stat"
  entries := [
    ⟨0, "RPC_MISMATCH", .normal⟩,
    ⟨1, "AUTH_ERROR", .normal⟩] }

/-- Kinds of credentials and verifiers. -/
def authFlavor : Table := {
  protocol := .rpc
  name := "auth_flavor"
  entries := [
    ⟨0, "AUTH_NONE", .normal⟩,
    ⟨1, "AUTH_SYS", .normal⟩,
    ⟨2, "AUTH_SHORT", .normal⟩,
    ⟨3, "AUTH_DH", .normal⟩,
    ⟨6, "RPCSEC_GSS", .normal⟩] }

/-- Why credentials or a verifier were refused. -/
def authStat : Table := {
  protocol := .rpc
  name := "auth_stat"
  entries := [
    ⟨0, "AUTH_OK", .normal⟩,
    ⟨1, "AUTH_BADCRED", .normal⟩,
    ⟨2, "AUTH_REJECTEDCRED", .normal⟩,
    ⟨3, "AUTH_BADVERF", .normal⟩,
    ⟨4, "AUTH_REJECTEDVERF", .normal⟩,
    ⟨5, "AUTH_TOOWEAK", .normal⟩,
    ⟨6, "AUTH_INVALIDRESP", .normal⟩,
    ⟨7, "AUTH_FAILED", .normal⟩,
    ⟨8, "AUTH_KERB_GENERIC", .normal⟩,
    ⟨9, "AUTH_TIMEEXPIRE", .normal⟩,
    ⟨10, "AUTH_TKT_FILE", .normal⟩,
    ⟨11, "AUTH_DECODE", .normal⟩,
    ⟨12, "AUTH_NET_ADDR", .normal⟩,
    ⟨13, "RPCSEC_GSS_CREDPROBLEM", .normal⟩,
    ⟨14, "RPCSEC_GSS_CTXPROBLEM", .normal⟩] }

def tables : List Table :=
  [msgType, replyStat, acceptStat, rejectStat, authFlavor, authStat]

def limits : List Limit := [
  ⟨.rpc, "MAX_AUTH_BYTES", maxAuthBytes⟩,
  ⟨.rpc, "MAX_MACHINE_NAME", maxMachineName⟩,
  ⟨.rpc, "MAX_AUTH_GIDS", maxAuthGids⟩]

end NfsWire.Rpc
