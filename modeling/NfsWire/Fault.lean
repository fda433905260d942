import NfsWire.Bytes
import NfsWire.Table

/-!
# What can be wrong with a message

A fault is a *cause*; its wording is in one place, `Fault.message`. A `DecodeError` adds
where the fault lies: the protocol whose reader met it, the path of the field being read and
the octet offset into the buffer that was handed in. An `EncodeError` is the same for
writing, where the offset counts the octets written so far.

**Truncation is the one provisional fault.** It says how many octets are missing, and more
input may turn it into anything. Every other fault is final.

Field paths are lists of segments, outermost first. A path read off a message is shown with
a point between segments, except that a segment starting an empty text gets none in front
of it; a path into a value to be written is shown with a point between any two segments. The
two differ only where a path starts with an empty name.
-/

namespace NfsWire

/-! ## Paths -/

/-- One step from a composite to a part of it. -/
inductive Segment where
  | name (s : String)
  | index (i : Nat)
  deriving DecidableEq, Repr, Inhabited

/-- Where a field lies in a message, outermost step first. -/
abbrev FieldPath := List Segment

def Segment.text : Segment → String
  | .name s => s
  | .index i => toString i

namespace FieldPath

/-- The path as text, no point in front of the first text that is not empty. -/
def text (p : FieldPath) : String :=
  p.foldl (fun s seg => if s.isEmpty then seg.text else s ++ "." ++ seg.text) ""

/-- The path as text, a point between any two segments. -/
def dotted (p : FieldPath) : String :=
  ".".intercalate (p.map Segment.text)

end FieldPath

/-! ## Causes -/

/-- Words whose value no writer produces. -/
inductive Malformation where
  | boolean
  | optionalFlag
  | padding
  deriving DecidableEq, Repr, Inhabited

/-- Messages that are well formed and that the protocol forbids. -/
inductive Violation where
  | reservedCode (table name : String)
  | unlistedCode (table : String) (code : Int32)
  | readChunkSize (position carried item : Nat)
  | writeChunkSize (index carried item : Nat)
  | transportVersion (version : UInt32)
  | chunkAlignment (position : UInt32)
  | messageChunkInline
  | chunkOrder (position previous : UInt32)
  | noChunk
  | noMessageChunk
  | transactionId (transport rpc : UInt32)
  deriving DecidableEq, Repr, Inhabited

/-- Ways in which a value fails to have the shape it is written with, or that was asked for. -/
inductive Mismatch where
  | discriminant
  | unresolved
  | fixedOpaque
  | fixedArray
  | missingField
  | arm
  | kind
  /-- A tree has not what the header of a message has. -/
  | messageHeader
  /-- A tree has not what a transport header has. -/
  | transportHeader
  deriving DecidableEq, Repr, Inhabited

/-- The cause of a failure. -/
inductive Fault where
  | truncated (needed : Nat)
  | malformed (what : Malformation)
  | tooLong (length max : UInt32)
  | noArm (code : Int)
  | unknownCode (table : String) (code : Int32)
  | violation (what : Violation)
  | mismatch (what : Mismatch)
  deriving DecidableEq, Repr, Inhabited

/-! ## Wording -/

def Malformation.message : Malformation → String
  | .boolean => "boolean is not 0 or 1"
  | .optionalFlag => "optional-data flag is not 0 or 1"
  | .padding => "non-zero padding"

def Violation.message : Violation → String
  | .reservedCode table name => table ++ " " ++ name ++ " is not to be used"
  | .unlistedCode table code =>
    table ++ " value " ++ toString code.toInt ++
      " is not one of the values fixed for all versions"
  | .readChunkSize position carried item =>
    "read chunk at position " ++ toString position ++ " carries " ++ toString carried ++
      " bytes for a " ++ toString item ++ " byte item"
  | .writeChunkSize index carried item =>
    "write chunk " ++ toString index ++ " holds " ++ toString carried ++
      " bytes for a " ++ toString item ++ " byte item"
  | .transportVersion version => "unsupported version " ++ toString version.toNat
  | .chunkAlignment position =>
    "read chunk position " ++ toString position.toNat ++ " is not XDR aligned"
  | .messageChunkInline => "position zero read chunk outside RDMA_NOMSG"
  | .chunkOrder position previous =>
    "read chunk position " ++ toString position.toNat ++ " before previous position " ++
      toString previous.toNat
  | .noChunk => "RDMA_NOMSG without any chunk"
  | .noMessageChunk => "RDMA_NOMSG without a position zero read chunk or reply chunk"
  | .transactionId transport rpc =>
    "rdma_xid " ++ hexWord transport ++ " does not match rpc xid " ++ hexWord rpc

def Mismatch.message : Mismatch → String
  | .discriminant => "union discriminant must be int, unsigned int, bool or enum"
  | .unresolved => "unresolved chunk data cannot be encoded"
  | .fixedOpaque => "fixed opaque has the wrong size"
  | .fixedArray => "fixed array has the wrong element count"
  | .missingField => "struct field missing"
  | .arm => "union arm does not match its discriminant"
  | .kind => "value kind differs from descriptor"
  | .messageHeader => "rpc_msg header"
  | .transportHeader => "rpc_rdma header"

namespace Fault

/-- The short name under which faults are counted. -/
def kind : Fault → String
  | .truncated _ => "truncated_data"
  | .malformed _ => "malformed_encoding"
  | .tooLong .. => "length_exceeded"
  | .noArm _ => "unknown_union_arm"
  | .unknownCode .. => "unknown_enum_value"
  | .violation _ => "protocol_violation"
  | .mismatch _ => "shape_mismatch"

/-- The fault in words. -/
def message : Fault → String
  | .truncated needed => "truncated data, " ++ toString needed ++ " more bytes needed"
  | .malformed what => "malformed encoding: " ++ what.message
  | .tooLong length max =>
    "length " ++ toString length.toNat ++ " exceeds maximum " ++ toString max.toNat
  | .noArm code => "no union arm for discriminant " ++ toString code
  | .unknownCode table code =>
    "unknown value " ++ toString code.toInt ++ " for enum " ++ table
  | .violation what => "protocol violation: " ++ what.message
  | .mismatch what => "value does not match descriptor: " ++ what.message

/-- Whether more input may change the outcome. -/
def isTruncated : Fault → Bool
  | .truncated _ => true
  | _ => false

end Fault

/-! ## Errors -/

/-- A failure to read a message. -/
structure DecodeError where
  /-- The protocol being read, or none when a bare value is. -/
  protocol : Option Protocol := none
  fault : Fault
  path : FieldPath
  /-- Octets from the start of the buffer that was handed in. -/
  offset : Nat
  deriving DecidableEq, Repr, Inhabited

/-- A failure to write a value. -/
structure EncodeError where
  fault : Fault
  path : FieldPath
  /-- Octets written before the failure. -/
  offset : Nat
  deriving DecidableEq, Repr, Inhabited

/-- What errors call the reader of a value that belongs to no protocol. -/
def bareName : String := "XDR"

/-- An error in one line: who, what, where. -/
def errorLine (who : String) (fault : Fault) (offset : Nat) (field : String) : String :=
  who ++ ": " ++ fault.message ++ " at offset " ++ toString offset ++ " (field '" ++ field ++ "')"

namespace DecodeError

def protocolName (e : DecodeError) : String :=
  match e.protocol with
  | none => bareName
  | some p => p.name

def message (e : DecodeError) : String :=
  errorLine e.protocolName e.fault e.offset e.path.text

/-- Name the protocol being read, unless an inner reader already did. -/
def inProtocol (p : Protocol) (e : DecodeError) : DecodeError :=
  match e.protocol with
  | none => { e with protocol := some p }
  | some _ => e

/-- The error as seen from a field that holds the failing one. -/
def under (outer : FieldPath) (e : DecodeError) : DecodeError :=
  { e with path := outer ++ e.path }

/-- The error as seen from a buffer in which the failing one starts at `base`. -/
def atBase (base : Nat) (e : DecodeError) : DecodeError :=
  { e with offset := e.offset + base }

end DecodeError

def EncodeError.message (e : EncodeError) : String :=
  errorLine bareName e.fault e.offset e.path.dotted

end NfsWire
