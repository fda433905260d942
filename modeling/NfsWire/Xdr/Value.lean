import NfsWire.Text.Numeral
import NfsWire.Xdr.Chunk
import NfsWire.Table

/-!
# Values read from messages

A value is the tree that a message holds. Enumerated codes keep the number that was on the
wire and carry its name when the table has one; an item whose data travels in a chunk that
the capture lacks is left as a reference to the chunk.

Parts are found by name: unions and present optionals are transparent, so that a name which
is not the arm's is looked up inside the arm.
-/

namespace NfsWire

/-- A tree of decoded data. -/
inductive Value where
  | void
  | int (v : Int32)
  | uint (v : UInt32)
  | hyper (v : Int64)
  | uhyper (v : UInt64)
  | bool (b : Bool)
  | enum (code : Int32) (name : Option String)
  | octets (data : Bytes)
  | text (data : Bytes)
  | array (items : List Value)
  | struct (fields : List (String × Value))
  | union (disc : Value) (arm : String) (value : Value)
  | optional (value : Option Value)
  | unresolved (ref : ChunkRef)
  deriving Repr, Inhabited

/-- The fields of a structure, in wire order. -/
abbrev Fields := List (String × Value)

/-- The first field of that name. -/
def Fields.find? (fields : Fields) (name : String) : Option Value :=
  (List.find? (·.1 == name) fields).map (·.2)

namespace Value

/-! ## Reading a leaf -/

/-- A 32-bit word, signed ones as their bits. -/
def toUInt32? : Value → Option UInt32
  | .uint v => some v
  | .int v => some v.toUInt32
  | .enum code _ => some code.toUInt32
  | .bool b => some (if b then 1 else 0)
  | _ => none

/-- A 32-bit word, unsigned ones as their bits. -/
def toInt32? : Value → Option Int32
  | .int v => some v
  | .uint v => some v.toInt32
  | .enum code _ => some code
  | _ => none

/-- A word of at most 64 bits, signed ones as their bits. -/
def toUInt64? : Value → Option UInt64
  | .uhyper v => some v
  | .hyper v => some v.toUInt64
  | .uint v => some v.toUInt64
  | _ => none

def toBool? : Value → Option Bool
  | .bool b => some b
  | _ => none

def bytes? : Value → Option Bytes
  | .octets data | .text data => some data
  | _ => none

def enum? : Value → Option (Int32 × Option String)
  | .enum code name => some (code, name)
  | _ => none

def fields? : Value → Option Fields
  | .struct fields => some fields
  | _ => none

def items? : Value → Option (List Value)
  | .array items => some items
  | _ => none

/-- Discriminant, arm and content of a union. -/
def union? : Value → Option (Value × String × Value)
  | .union disc arm value => some (disc, arm, value)
  | _ => none

def isUnresolved : Value → Bool
  | .unresolved _ => true
  | _ => false

/-- The number by which a discriminant selects its arm. -/
def armCode? : Value → Option Int
  | .int v => some v.toInt
  | .uint v => some v.toNat
  | .enum code _ => some code.toInt
  | .bool b => some (if b then 1 else 0)
  | _ => none

/-! ## Finding a part -/

/-- The part of that name. Elements of an array are named by their index. -/
def get? : Value → String → Option Value
  | .struct fields, name => Fields.find? fields name
  | .union _ arm value, name => if arm = name then some value else value.get? name
  | .optional (some v), name => v.get? name
  | .array items, name => (Numeral.natural64? name).bind (items[·]?)
  | _, _ => none

/-- Follow names from part to part. -/
def follow? (v : Value) : List String → Option Value
  | [] => some v
  | name :: rest => (v.get? name).bind (follow? · rest)

/-- Follow a path of names with points between them; empty names are passed over. -/
def path? (v : Value) (path : String) : Option Value :=
  v.follow? ((path.splitOn ".").filter (· ≠ ""))

/-! ## What is missing -/

mutual

/-- References of the chunks whose data is missing, in wire order. -/
def missing : Value → List ChunkRef
  | .unresolved ref => [ref]
  | .array items => missingItems items
  | .struct fields => missingFields fields
  | .union _ _ value => value.missing
  | .optional (some v) => v.missing
  | _ => []

def missingItems : List Value → List ChunkRef
  | [] => []
  | v :: rest => v.missing ++ missingItems rest

def missingFields : List (String × Value) → List ChunkRef
  | [] => []
  | (_, v) :: rest => v.missing ++ missingFields rest

end

end Value

end NfsWire
