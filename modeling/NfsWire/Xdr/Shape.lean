import NfsWire.Bytes
import NfsWire.Table

/-!
# Shapes of messages

A shape says how a value is laid out on the wire. Reading (`NfsWire.Xdr.Decode`) and writing
(`NfsWire.Xdr.Encode`) are both driven by it, so that a protocol is described once.

* Scalars, enumerated codes, opaque data and text are the leaves.
* An **array** has its element count in front, unless the count is fixed.
* A **chain** is a sequence in which each element is announced by a flag word, and an
  **optional** is a chain of at most one element.
* A **union** reads a discriminant and goes on with the first arm of that code, or with the
  default arm.

`minSize` is the least room a value of a shape takes; a reader uses it to refuse, before
reading any element, an array that the rest of the message cannot hold. It is the exact number
here, and what 64 bits keep of it in the reader (`Reader.need`).
-/

namespace NfsWire

/-- How the size of opaque data or an array is determined. -/
inductive Extent where
  | fixed (size : UInt32)
  | variable (max : Option UInt32)
  deriving DecidableEq, Repr, Inhabited

/-- The layout of a value on the wire. -/
inductive Shape where
  | void
  | int
  | uint
  | hyper
  | uhyper
  | bool
  /-- A code of `table`. A `fixed` field holds no code but those the table lets a peer send. -/
  | enum (table : Table) (fixed : Bool)
  /-- Octets; `ddp` marks data that a transport may place directly. -/
  | octets (extent : Extent) (ddp : Bool)
  | text (max : Option UInt32) (ddp : Bool)
  | array (elem : Shape) (extent : Extent)
  | chain (elem : Shape)
  | optional (inner : Shape)
  | struct (fields : List (String × Shape))
  | union (disc : Shape) (arms : List (Int × String × Shape)) (fallback : Option (String × Shape))
  deriving Inhabited

namespace Shape

/-! ## Common shapes -/

/-- A code of `table` that later versions may add to. -/
def code (table : Table) : Shape := .enum table false

/-- Exactly `size` octets. -/
def octetsOf (size : UInt32) : Shape := .octets (.fixed size) false

/-- At most `max` octets. -/
def octetsUpTo (max : UInt32) : Shape := .octets (.variable (some max)) false

/-- Any number of octets. -/
def anyOctets : Shape := .octets (.variable none) false

/-- Text of at most `max` octets. -/
def textUpTo (max : UInt32) : Shape := .text (some max) false

/-- Text of any length. -/
def anyText : Shape := .text none false

/-- Any number of elements. -/
def arrayOf (elem : Shape) : Shape := .array elem (.variable none)

/-- At most `max` elements. -/
def arrayUpTo (elem : Shape) (max : UInt32) : Shape := .array elem (.variable (some max))

/-- Something that may be absent: a union over a boolean with an empty arm. -/
def present (name : String) (s : Shape) : Shape :=
  .union .bool [(1, name, s), (0, "void", .void)] none

/-! ## What a shape says of itself -/

/-- Mark opaque data or text as fit for direct placement. -/
def placeable : Shape → Shape
  | .octets extent _ => .octets extent true
  | .text max _ => .text max true
  | s => s

/-- What the shape is called. -/
def kind : Shape → String
  | .void => "void"
  | .int => "int"
  | .uint => "unsigned int"
  | .hyper => "hyper"
  | .uhyper => "unsigned hyper"
  | .bool => "bool"
  | .enum .. => "enum"
  | .octets .. => "opaque"
  | .text .. => "string"
  | .array .. => "array"
  | .chain _ => "list"
  | .optional _ => "optional"
  | .struct _ => "struct"
  | .union .. => "union"

mutual

/-- The least number of octets a value of the shape takes in line. -/
def minSize : Shape → Nat
  | .void => 0
  | .hyper | .uhyper => 8
  | .octets (.fixed n) _ => Bytes.padded n.toNat
  | .array elem (.fixed n) => elem.minSize * n.toNat
  | .struct fields => minSizes fields
  | _ => 4

/-- The least number of octets the fields take together. -/
def minSizes : List (String × Shape) → Nat
  | [] => 0
  | (_, s) :: rest => s.minSize + minSizes rest

end

/-- The arm that a discriminant selects: the first of its code, else the default. -/
def arm? (arms : List (Int × String × Shape)) (fallback : Option (String × Shape)) (code : Int) :
    Option (String × Shape) :=
  ((arms.find? (·.1 == code)).map (·.2)).or fallback

end Shape

end NfsWire
