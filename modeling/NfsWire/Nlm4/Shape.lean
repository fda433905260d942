import NfsWire.Nlm4.Table
import NfsWire.Xdr.Shape

/-!
# Shapes of lock manager calls

The arguments and results of the procedures of the Network Lock Manager, version 4.
-/

namespace NfsWire.Nlm4

open Shape

/-- Octets that only their maker understands. -/
def netobj : Shape := octetsUpTo netobjSize

def lock : Shape :=
  .struct [
    ("caller_name", textUpTo maxCallerName),
    ("fh", netobj),
    ("oh", netobj),
    ("svid", .int),
    ("l_offset", .uhyper),
    ("l_len", .uhyper)]

def holder : Shape :=
  .struct [
    ("exclusive", .bool),
    ("svid", .int),
    ("oh", netobj),
    ("l_offset", .uhyper),
    ("l_len", .uhyper)]

def testArgs : Shape :=
  .struct [("cookie", netobj), ("exclusive", .bool), ("alock", lock)]

def lockArgs : Shape :=
  .struct [
    ("cookie", netobj),
    ("block", .bool),
    ("exclusive", .bool),
    ("alock", lock),
    ("reclaim", .bool),
    ("state", .int)]

def cancelArgs : Shape :=
  .struct [("cookie", netobj), ("block", .bool), ("exclusive", .bool), ("alock", lock)]

def unlockArgs : Shape :=
  .struct [("cookie", netobj), ("alock", lock)]

def result : Shape :=
  .struct [("cookie", netobj), ("stat", .struct [("stat", code status)])]

def testResult : Shape :=
  .struct [
    ("cookie", netobj),
    ("stat", .union (code status) [(1, "holder", holder)] (some ("void", .void)))]

def shareArgs : Shape :=
  .struct [
    ("cookie", netobj),
    ("share", .struct [
      ("caller_name", textUpTo maxCallerName),
      ("fh", netobj),
      ("oh", netobj),
      ("mode", code shareMode),
      ("access", code shareAccess)]),
    ("reclaim", .bool)]

def shareResult : Shape :=
  .struct [("cookie", netobj), ("stat", code status), ("sequence", .int)]

/-- A host that lost its locks. -/
def freeAllArgs : Shape :=
  .struct [("name", textUpTo maxHostName), ("state", .int)]

/-- Arguments and results by procedure number. The asynchronous procedures have empty
results: their answer is a call in the other direction. -/
def shapes : List (UInt32 × Shape × Shape) := [
  (0, .void, .void),
  (1, testArgs, testResult),
  (2, lockArgs, result),
  (3, cancelArgs, result),
  (4, unlockArgs, result),
  (5, testArgs, result),
  (6, testArgs, .void),
  (7, lockArgs, .void),
  (8, cancelArgs, .void),
  (9, unlockArgs, .void),
  (10, testArgs, .void),
  (11, testResult, .void),
  (12, result, .void),
  (13, result, .void),
  (14, result, .void),
  (15, result, .void),
  (20, shareArgs, shareResult),
  (21, shareArgs, shareResult),
  (22, lockArgs, result),
  (23, freeAllArgs, .void)]

end NfsWire.Nlm4
