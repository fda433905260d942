import NfsWire.Table

/-!
# Codes and limits of the Network Lock Manager, version 4
-/

namespace NfsWire.Nlm4

/-- The number of the program. -/
def program : UInt32 := 100021

/-- The longest name of a caller. -/
def maxCallerName : UInt32 := 1024

/-- The longest name of a host. -/
def maxHostName : UInt32 := maxCallerName + 1

/-- The most octets of a network object. -/
def netobjSize : UInt32 := 1024

/-- Truth values as codes. -/
def truth : Table := {
  protocol := .nlm4
  name := "nfs_bool"
  entries := [
    ⟨0, "FALSE", .normal⟩,
    ⟨1, "TRUE", .normal⟩] }

/-- The outcome of a lock request. -/
def status : Table := {
  protocol := .nlm4
  name := "nlm4_stats"
  entries := [
    ⟨0, "NLM4_GRANTED", .normal⟩,
    ⟨1, "NLM4_DENIED", .normal⟩,
    ⟨2, "NLM4_DENIED_NOLOCKS", .normal⟩,
    ⟨3, "NLM4_BLOCKED", .normal⟩,
    ⟨4, "NLM4_DENIED_GRACE_PERIOD", .normal⟩,
    ⟨5, "NLM4_DEADLCK", .normal⟩,
    ⟨6, "NLM4_ROFS", .normal⟩,
    ⟨7, "NLM4_STALE_FH", .normal⟩,
    ⟨8, "NLM4_FBIG", .normal⟩,
    ⟨9, "NLM4_FAILED", .normal⟩] }

/-- What a share denies to others. -/
def shareMode : Table := {
  protocol := .nlm4
  name := "fsh4_mode"
  entries := [
    ⟨0, "fsm_DN", .normal⟩,
    ⟨1, "fsm_DR", .normal⟩,
    ⟨2, "fsm_DW", .normal⟩,
    ⟨3, "fsm_DRW", .normal⟩] }

/-- What a share allows its holder. -/
def shareAccess : Table := {
  protocol := .nlm4
  name := "fsh4_access"
  entries := [
    ⟨0, "fsa_NONE", .normal⟩,
    ⟨1, "fsa_R", .normal⟩,
    ⟨2, "fsa_W", .normal⟩,
    ⟨3, "fsa_RW", .normal⟩] }

/-- The procedures of the program. -/
def procedures : Table := {
  protocol := .nlm4
  name := "nlm_proc4"
  entries := [
    ⟨0, "NLMPROC4_NULL", .normal⟩,
    ⟨1, "NLMPROC4_TEST", .normal⟩,
    ⟨2, "NLMPROC4_LOCK", .normal⟩,
    ⟨3, "NLMPROC4_CANCEL", .normal⟩,
    ⟨4, "NLMPROC4_UNLOCK", .normal⟩,
    ⟨5, "NLMPROC4_GRANTED", .normal⟩,
    ⟨6, "NLMPROC4_TEST_MSG", .normal⟩,
    ⟨7, "NLMPROC4_LOCK_MSG", .normal⟩,
    ⟨8, "NLMPROC4_CANCEL_MSG", .normal⟩,
    ⟨9, "NLMPROC4_UNLOCK_MSG", .normal⟩,
    ⟨10, "NLMPROC4_GRANTED_MSG", .normal⟩,
    ⟨11, "NLMPROC4_TEST_RES", .normal⟩,
    ⟨12, "NLMPROC4_LOCK_RES", .normal⟩,
    ⟨13, "NLMPROC4_CANCEL_RES", .normal⟩,
    ⟨14, "NLMPROC4_UNLOCK_RES", .normal⟩,
    ⟨15, "NLMPROC4_GRANTED_RES", .normal⟩,
    ⟨20, "NLMPROC4_SHARE", .normal⟩,
    ⟨21, "NLMPROC4_UNSHARE", .normal⟩,
    ⟨22, "NLMPROC4_NM_LOCK", .normal⟩,
    ⟨23, "NLMPROC4_FREE_ALL", .normal⟩] }

def tables : List Table :=
  [truth, status, shareMode, shareAccess, procedures]

def limits : List Limit := [
  ⟨.nlm4, "LM_MAXSTRLEN", maxCallerName⟩,
  ⟨.nlm4, "MAXNAMELEN", maxHostName⟩,
  ⟨.nlm4, "MAXNETOBJ_SZ", netobjSize⟩]

end NfsWire.Nlm4
