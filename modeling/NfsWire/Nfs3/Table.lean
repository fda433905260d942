import NfsWire.Table

/-!
# Codes and limits of NFS version 3

The constants of RFC 1813 that messages refer to.
-/

namespace NfsWire.Nfs3

/-- The number of the program. -/
def program : UInt32 := 100003

/-- The longest file handle. -/
def fileHandleSize : UInt32 := 64

/-- The size of a directory cookie verifier. -/
def cookieVerfSize : UInt32 := 8

/-- The size of an exclusive create verifier. -/
def createVerfSize : UInt32 := 8

/-- The size of a write verifier. -/
def writeVerfSize : UInt32 := 8

/-- The procedures of the program. -/
def procedures : Table := {
  protocol := .nfs3
  name := "nfs_proc3"
  entries := [
    ⟨0, "NULL", .normal⟩,
    ⟨1, "GETATTR", .normal⟩,
    ⟨2, "SETATTR", .normal⟩,
    ⟨3, "LOOKUP", .normal⟩,
    ⟨4, "ACCESS", .normal⟩,
    ⟨5, "READLINK", .normal⟩,
    ⟨6, "READ", .normal⟩,
    ⟨7, "WRITE", .normal⟩,
    ⟨8, "CREATE", .normal⟩,
    ⟨9, "MKDIR", .normal⟩,
    ⟨10, "SYMLINK", .normal⟩,
    ⟨11, "MKNOD", .normal⟩,
    ⟨12, "REMOVE", .normal⟩,
    ⟨13, "RMDIR", .normal⟩,
    ⟨14, "RENAME", .normal⟩,
    ⟨15, "LINK", .normal⟩,
    ⟨16, "READDIR", .normal⟩,
    ⟨17, "READDIRPLUS", .normal⟩,
    ⟨18, "FSSTAT", .normal⟩,
    ⟨19, "FSINFO", .normal⟩,
    ⟨20, "PATHCONF", .normal⟩,
    ⟨21, "COMMIT", .normal⟩] }

/-- The outcome of a procedure. -/
def status : Table := {
  protocol := .nfs3
  name := "nfsstat3"
  entries := [
    ⟨0, "NFS3_OK", .normal⟩,
    ⟨1, "NFS3ERR_PERM", .normal⟩,
    ⟨2, "NFS3ERR_NOENT", .normal⟩,
    ⟨5, "NFS3ERR_IO", .normal⟩,
    ⟨6, "NFS3ERR_NXIO", .normal⟩,
    ⟨13, "NFS3ERR_ACCES", .normal⟩,
    ⟨17, "NFS3ERR_EXIST", .normal⟩,
    ⟨18, "NFS3ERR_XDEV", .normal⟩,
    ⟨19, "NFS3ERR_NODEV", .normal⟩,
    ⟨20, "NFS3ERR_NOTDIR", .normal⟩,
    ⟨21, "NFS3ERR_ISDIR", .normal⟩,
    ⟨22, "NFS3ERR_INVAL", .normal⟩,
    ⟨27, "NFS3ERR_FBIG", .normal⟩,
    ⟨28, "NFS3ERR_NOSPC", .normal⟩,
    ⟨30, "NFS3ERR_ROFS", .normal⟩,
    ⟨31, "NFS3ERR_MLINK", .normal⟩,
    ⟨63, "NFS3ERR_NAMETOOLONG", .normal⟩,
    ⟨66, "NFS3ERR_NOTEMPTY", .normal⟩,
    ⟨69, "NFS3ERR_DQUOT", .normal⟩,
    ⟨70, "NFS3ERR_STALE", .normal⟩,
    ⟨71, "NFS3ERR_REMOTE", .normal⟩,
    ⟨10001, "NFS3ERR_BADHANDLE", .normal⟩,
    ⟨10002, "NFS3ERR_NOT_SYNC", .normal⟩,
    ⟨10003, "NFS3ERR_BAD_COOKIE", .normal⟩,
    ⟨10004, "NFS3ERR_NOTSUPP", .normal⟩,
    ⟨10005, "NFS3ERR_TOOSMALL", .normal⟩,
    ⟨10006, "NFS3ERR_SERVERFAULT", .normal⟩,
    ⟨10007, "NFS3ERR_BADTYPE", .normal⟩,
    ⟨10008, "NFS3ERR_JUKEBOX", .normal⟩] }

/-- Types of files. -/
def fileType : Table := {
  protocol := .nfs3
  name := "ftype3"
  entries := [
    ⟨1, "NF3REG", .normal⟩,
    ⟨2, "NF3DIR", .normal⟩,
    ⟨3, "NF3BLK", .normal⟩,
    ⟨4, "NF3CHR", .normal⟩,
    ⟨5, "NF3LNK", .normal⟩,
    ⟨6, "NF3SOCK", .normal⟩,
    ⟨7, "NF3FIFO", .normal⟩] }

/-- How far data has to be on stable storage. -/
def stableHow : Table := {
  protocol := .nfs3
  name := "stable_how"
  entries := [
    ⟨0, "UNSTABLE", .normal⟩,
    ⟨1, "DATA_SYNC", .normal⟩,
    ⟨2, "FILE_SYNC", .normal⟩] }

/-- What to do when the file exists. -/
def createMode : Table := {
  protocol := .nfs3
  name := "createmode3"
  entries := [
    ⟨0, "UNCHECKED", .normal⟩,
    ⟨1, "GUARDED", .normal⟩,
    ⟨2, "EXCLUSIVE", .normal⟩] }

/-- Where a new time comes from. -/
def timeHow : Table := {
  protocol := .nfs3
  name := "time_how"
  entries := [
    ⟨0, "DONT_CHANGE", .normal⟩,
    ⟨1, "SET_TO_SERVER_TIME", .normal⟩,
    ⟨2, "SET_TO_CLIENT_TIME", .normal⟩] }

def tables : List Table :=
  [procedures, status, fileType, stableHow, createMode, timeHow]

def limits : List Limit := [
  ⟨.nfs3, "NFS3_FHSIZE", fileHandleSize⟩,
  ⟨.nfs3, "NFS3_COOKIEVERFSIZE", cookieVerfSize⟩,
  ⟨.nfs3, "NFS3_CREATEVERFSIZE", createVerfSize⟩,
  ⟨.nfs3, "NFS3_WRITEVERFSIZE", writeVerfSize⟩]

end NfsWire.Nfs3
