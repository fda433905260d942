import NfsWire.Nfs3.Table
import NfsWire.Xdr.Shape

/-!
# Shapes of file service calls

The arguments and results of the procedures of NFS version 3, as RFC 1813 lays them out.
Results are unions over the outcome: one arm for success and the default arm for every
failure.
-/

namespace NfsWire.Nfs3

open Shape

/-! ## Common parts -/

def fileHandle : Shape :=
  .struct [("data", octetsUpTo fileHandleSize)]

def time : Shape :=
  .struct [("seconds", .uint), ("nseconds", .uint)]

def specData : Shape :=
  .struct [("specdata1", .uint), ("specdata2", .uint)]

def attributes : Shape :=
  .struct [
    ("type", code fileType),
    ("mode", .uint),
    ("nlink", .uint),
    ("uid", .uint),
    ("gid", .uint),
    ("size", .uhyper),
    ("used", .uhyper),
    ("rdev", specData),
    ("fsid", .uhyper),
    ("fileid", .uhyper),
    ("atime", time),
    ("mtime", time),
    ("ctime", time)]

/-- The attributes after an operation, if the server tells. -/
def postAttributes : Shape := present "attributes" attributes

/-- The attributes before an operation, if the server tells. -/
def preAttributes : Shape :=
  present "attributes" (.struct [("size", .uhyper), ("mtime", time), ("ctime", time)])

/-- Attributes before and after, by which a client keeps its cache. -/
def cacheData : Shape :=
  .struct [("before", preAttributes), ("after", postAttributes)]

def postHandle : Shape := present "handle" fileHandle

/-- A new time: unchanged, the server's, or the one given. -/
def setTime (name : String) : Shape :=
  .union (code timeHow) [(2, name, time)] (some ("void", .void))

/-- New attributes, each of which may be left out. -/
def setAttributes : Shape :=
  .struct [
    ("mode", present "mode" .uint),
    ("uid", present "uid" .uint),
    ("gid", present "gid" .uint),
    ("size", present "size" .uhyper),
    ("atime", setTime "atime"),
    ("mtime", setTime "mtime")]

/-- A name in a directory. -/
def dirEntry : Shape :=
  .struct [("dir", fileHandle), ("name", anyText)]

/-- Results that depend on the outcome. -/
def outcome (ok fail : Shape) : Shape :=
  .union (code status) [(0, "resok", ok)] (some ("resfail", fail))

/-- Results that start with the object's attributes whatever the outcome. -/
def attributesAnd (ok : List (String × Shape)) : Shape :=
  outcome (.struct (("obj_attributes", postAttributes) :: ok))
    (.struct [("obj_attributes", postAttributes)])

/-- Results of the procedures that make an object in a directory. -/
def madeObject : Shape :=
  outcome
    (.struct [("obj", postHandle), ("obj_attributes", postAttributes), ("dir_wcc", cacheData)])
    (.struct [("dir_wcc", cacheData)])

/-- Results that are cache data under one name, whatever the outcome. -/
def cacheOnly (name : String) : Shape :=
  outcome (.struct [(name, cacheData)]) (.struct [(name, cacheData)])

/-! ## Procedures -/

/-- Arguments and results of a procedure. -/
abbrev Signature := Shape × Shape

def getattr : Signature :=
  (.struct [("object", fileHandle)],
    outcome (.struct [("obj_attributes", attributes)]) .void)

def setattr : Signature :=
  (.struct [
      ("object", fileHandle),
      ("new_attributes", setAttributes),
      ("guard", present "obj_ctime" time)],
    cacheOnly "obj_wcc")

def lookup : Signature :=
  (.struct [("what", dirEntry)],
    outcome
      (.struct [
        ("object", fileHandle),
        ("obj_attributes", postAttributes),
        ("dir_attributes", postAttributes)])
      (.struct [("dir_attributes", postAttributes)]))

def access : Signature :=
  (.struct [("object", fileHandle), ("access", .uint)],
    attributesAnd [("access", .uint)])

def readlink : Signature :=
  (.struct [("symlink", fileHandle)],
    outcome
      (.struct [("symlink_attributes", postAttributes), ("data", anyText.placeable)])
      (.struct [("symlink_attributes", postAttributes)]))

def read : Signature :=
  (.struct [("file", fileHandle), ("offset", .uhyper), ("count", .uint)],
    outcome
      (.struct [
        ("file_attributes", postAttributes),
        ("count", .uint),
        ("eof", .bool),
        ("data", anyOctets.placeable)])
      (.struct [("file_attributes", postAttributes)]))

def write : Signature :=
  (.struct [
      ("file", fileHandle),
      ("offset", .uhyper),
      ("count", .uint),
      ("stable", code stableHow),
      ("data", anyOctets.placeable)],
    outcome
      (.struct [
        ("file_wcc", cacheData),
        ("count", .uint),
        ("committed", code stableHow),
        ("verf", octetsOf writeVerfSize)])
      (.struct [("file_wcc", cacheData)]))

def create : Signature :=
  (.struct [
      ("where", dirEntry),
      ("how", .union (code createMode)
        [(0, "obj_attributes", setAttributes),
          (1, "obj_attributes", setAttributes),
          (2, "verf", octetsOf createVerfSize)]
        none)],
    madeObject)

def mkdir : Signature :=
  (.struct [("where", dirEntry), ("attributes", setAttributes)], madeObject)

def symlink : Signature :=
  (.struct [
      ("where", dirEntry),
      ("symlink", .struct [
        ("symlink_attributes", setAttributes),
        ("symlink_data", anyText)])],
    madeObject)

/-- A device file: its attributes and its numbers. -/
def device : Shape :=
  .struct [("dev_attributes", setAttributes), ("spec", specData)]

def mknod : Signature :=
  (.struct [
      ("where", dirEntry),
      ("what", .union (code fileType)
        [(4, "device", device),
          (3, "device", device),
          (6, "pipe_attributes", setAttributes),
          (7, "pipe_attributes", setAttributes)]
        (some ("void", .void)))],
    madeObject)

def remove : Signature :=
  (.struct [("object", dirEntry)], cacheOnly "dir_wcc")

/-- Cache data of both directories of a renaming. -/
def renameCache : Shape :=
  .struct [("fromdir_wcc", cacheData), ("todir_wcc", cacheData)]

def rename : Signature :=
  (.struct [("from", dirEntry), ("to", dirEntry)], outcome renameCache renameCache)

/-- Attributes of the file and cache data of the directory it is linked into. -/
def linkCache : Shape :=
  .struct [("file_attributes", postAttributes), ("linkdir_wcc", cacheData)]

def link : Signature :=
  (.struct [("file", fileHandle), ("link", dirEntry)], outcome linkCache linkCache)

/-- A page of a directory. -/
def directoryPage (entry : Shape) : Shape :=
  outcome
    (.struct [
      ("dir_attributes", postAttributes),
      ("cookieverf", octetsOf cookieVerfSize),
      ("reply", .struct [("entries", .chain entry), ("eof", .bool)])])
    (.struct [("dir_attributes", postAttributes)])

def readdir : Signature :=
  (.struct [
      ("dir", fileHandle),
      ("cookie", .uhyper),
      ("cookieverf", octetsOf cookieVerfSize),
      ("count", .uint)],
    directoryPage (.struct [("fileid", .uhyper), ("name", anyText), ("cookie", .uhyper)]))

def readdirplus : Signature :=
  (.struct [
      ("dir", fileHandle),
      ("cookie", .uhyper),
      ("cookieverf", octetsOf cookieVerfSize),
      ("dircount", .uint),
      ("maxcount", .uint)],
    directoryPage (.struct [
      ("fileid", .uhyper),
      ("name", anyText),
      ("cookie", .uhyper),
      ("name_attributes", postAttributes),
      ("name_handle", postHandle)]))

def fsstat : Signature :=
  (.struct [("fsroot", fileHandle)],
    attributesAnd [
      ("tbytes", .uhyper),
      ("fbytes", .uhyper),
      ("abytes", .uhyper),
      ("tfiles", .uhyper),
      ("ffiles", .uhyper),
      ("afiles", .uhyper),
      ("invarsec", .uint)])

def fsinfo : Signature :=
  (.struct [("fsroot", fileHandle)],
    attributesAnd [
      ("rtmax", .uint),
      ("rtpref", .uint),
      ("rtmult", .uint),
      ("wtmax", .uint),
      ("wtpref", .uint),
      ("wtmult", .uint),
      ("dtpref", .uint),
      ("maxfilesize", .uhyper),
      ("time_delta", time),
      ("properties", .uint)])

def pathconf : Signature :=
  (.struct [("object", fileHandle)],
    attributesAnd [
      ("linkmax", .uint),
      ("name_max", .uint),
      ("no_trunc", .bool),
      ("chown_restricted", .bool),
      ("case_insensitive", .bool),
      ("case_preserving", .bool)])

def commit : Signature :=
  (.struct [("file", fileHandle), ("offset", .uhyper), ("count", .uint)],
    outcome
      (.struct [("file_wcc", cacheData), ("verf", octetsOf writeVerfSize)])
      (.struct [("file_wcc", cacheData)]))

/-- Arguments and results by procedure number. -/
def shapes : List (UInt32 × Signature) := [
  (0, .void, .void),
  (1, getattr),
  (2, setattr),
  (3, lookup),
  (4, access),
  (5, readlink),
  (6, read),
  (7, write),
  (8, create),
  (9, mkdir),
  (10, symlink),
  (11, mknod),
  (12, remove),
  (13, remove),
  (14, rename),
  (15, link),
  (16, readdir),
  (17, readdirplus),
  (18, fsstat),
  (19, fsinfo),
  (20, pathconf),
  (21, commit)]

end NfsWire.Nfs3
