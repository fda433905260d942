import NfsWire.Fault
import NfsWire.Xdr.Shape
import NfsWire.Xdr.Value

/-!
# Reading values

A reader walks over a message from front to back. What changes on the way is the *cursor*:
the octets not read yet, how many lie before them, how many octets were put in from read
chunks, and how many write chunks were used. What does not change is the *context*: whether
unknown codes are refused, the chunks of the message, and the path of the field being read.

A failing reader keeps its cursor. Reading may go on from there, and the octets already read
stay read.

**Every refusal has its offset.** A word with a value that no writer produces is reported
where the word starts; missing input is reported where the reader stands, with the number of
octets it lacks.

**Chunks.** The position of an item in the whole message is its offset plus the octets put
in so far. If a read chunk belongs there, the item's octets come from it. Otherwise an item
fit for direct placement takes the next write chunk, where those are enabled. Otherwise the
octets are in line.
-/

namespace NfsWire

/-! ## Readers -/

/-- What stays the same while a value is read. -/
structure ReadContext where
  /-- Refuse codes that their table does not name. -/
  strict : Bool := false
  /-- What was taken out of the message, if anything may have been. -/
  chunks : Option ChunkMap := none
  /-- Whether items may be found in write chunks. -/
  useWrites : Bool := false
  /-- The field being read. -/
  path : FieldPath := []
  deriving Repr, Inhabited

/-- Where a reader stands. -/
structure Cursor where
  /-- The octets not read yet. -/
  rest : Bytes
  /-- Octets of the message before them. -/
  offset : Nat := 0
  /-- Octets that read chunks contributed so far. -/
  spliced : Nat := 0
  /-- Write chunks used so far. -/
  writesUsed : Nat := 0
  deriving Repr, Inhabited

/-- Stand at `offset` of a message, or at its end if it is shorter. -/
def Cursor.at (message : Bytes) (offset : Nat) : Cursor :=
  { rest := message.drop offset, offset := min offset message.length }

/-- A step over a message: its result or an error, and where it stopped. -/
abbrev Reader := ReaderT ReadContext (EStateM DecodeError Cursor)

namespace Reader

variable {α : Type}

/-- Stop with a fault at a given offset. -/
def failAt (offset : Nat) (fault : Fault) : Reader α := fun ctx c =>
  .error { fault, path := ctx.path, offset } c

/-- Stop with a fault where the reader stands. -/
def fail (fault : Fault) : Reader α := fun ctx c => failAt c.offset fault ctx c

/-- Octets of the message before the cursor. -/
def offset : Reader Nat := fun _ c => .ok c.offset c

/-- Read a part of the field being read. -/
def within (segment : Segment) (part : Reader α) : Reader α := fun ctx c =>
  part { ctx with path := ctx.path ++ [segment] } c

/-! ## Words -/

/-- The next `n` octets. -/
def take (n : Nat) : Reader Bytes := fun ctx c =>
  let data := c.rest.take n
  if data.length < n then fail (.truncated (n - data.length)) ctx c
  else .ok data { c with rest := c.rest.drop n, offset := c.offset + n }

/-- The next `width` octets as a number. -/
def number (width : Nat) : Reader Nat := do
  return Bytes.toNat (← take width)

def uint : Reader UInt32 := do return UInt32.ofNat (← number 4)

def int : Reader Int32 := do return (← uint).toInt32

def uhyper : Reader UInt64 := do return UInt64.ofNat (← number 8)

def hyper : Reader Int64 := do return (← uhyper).toInt64

/-- A word that is 0 or 1; any other is a fault at its start. -/
def flag (what : Malformation) : Reader Bool := do
  let start ← offset
  let w ← uint
  if w = 0 then return false
  else if w = 1 then return true
  else failAt start (.malformed what)

def bool : Reader Bool := flag .boolean

/-- The length of what follows, within its maximum. -/
def length (max : Option UInt32) : Reader UInt32 := do
  let start ← offset
  let n ← uint
  match max with
  | some max => if max < n then failAt start (.tooLong n max) else return n
  | none => return n

/-! ## Octets -/

/-- The zero octets that follow `n` octets of data. -/
def padding (n : Nat) : Reader Unit := do
  let start ← offset
  let zeros ← take (Bytes.padding n)
  if zeros.any (· ≠ 0) then failAt start (.malformed .padding)

/-- `n` octets of data and their padding. -/
def octets (n : Nat) : Reader Bytes := do
  let data ← take n
  padding n
  return data

/-- Data with its length in front. -/
def counted (max : Option UInt32) : Reader Bytes := do
  octets (← length max).toNat

/-- The first `n` octets of a chunk, or a reference to it when its data is missing. -/
def chunkValue (wrap : Bytes → Value) (chunk : Chunk) (n : Nat) : Value :=
  match chunk.data with
  | some data => wrap (data.take n)
  | none => .unresolved chunk.ref

/-- An item of `n` octets that was taken out of the message, if it was. -/
def placed? (wrap : Bytes → Value) (ddp : Bool) (n : Nat) : Reader (Option Value) := fun ctx c =>
  match ctx.chunks with
  | none => .ok none c
  | some chunks =>
    let position := c.offset + c.spliced
    match chunks.readAt? position with
    | some chunk =>
      let carried := chunk.ref.length.toNat
      if carried < n ∨ Bytes.padded n < carried then
        fail (.violation (.readChunkSize position carried n)) ctx c
      else
        .ok (some (chunkValue wrap chunk n)) { c with spliced := c.spliced + Bytes.padded n }
    | none =>
      if ddp ∧ ctx.useWrites then
        match chunks.writes[c.writesUsed]? with
        | some chunk =>
          let carried := chunk.ref.length.toNat
          if carried < n then
            fail (.violation (.writeChunkSize chunk.ref.index carried n)) ctx c
          else
            .ok (some (chunkValue wrap chunk n)) { c with writesUsed := c.writesUsed + 1 }
        | none => .ok none c
      else .ok none c

/-- Opaque data or text with its length in front, in line or in a chunk. -/
def item (wrap : Bytes → Value) (max : Option UInt32) (ddp : Bool) : Reader Value := do
  let n := (← length max).toNat
  match ← placed? wrap ddp n with
  | some v => return v
  | none => return wrap (← octets n)

/-! ## Codes -/

/-- What a code found in a field of `table` stands for. -/
def judge (table : Table) (fixed strict : Bool) (code : Int32) : Except Fault Value :=
  match table.entry? code with
  | some e =>
    if fixed ∧ e.stability = .notToBeUsed then
      .error (.violation (.reservedCode table.name e.name))
    else .ok (.enum code (some e.name))
  | none =>
    if fixed then .error (.violation (.unlistedCode table.name code))
    else if strict then .error (.unknownCode table.name code)
    else .ok (.enum code none)

/-- A code of `table`, refused at the start of its word. -/
def enum (table : Table) (fixed : Bool) : Reader Value := do
  let start ← offset
  let code ← int
  match judge table fixed (← read).strict code with
  | .ok v => return v
  | .error fault => failAt start fault

/-! ## Sequences -/

/-- The room that `count` elements need. The least size of an element is worked out in words of
64 bits, which go round; the need itself stops at the greatest such word. -/
def need (count minSize : Nat) : Nat := min (count * (minSize % UInt64.size)) (UInt64.size - 1)

theorem need_le (count minSize : Nat) : need count minSize ≤ count * minSize :=
  Nat.le_trans (Nat.min_le_left ..) (Nat.mul_le_mul_left _ (Nat.mod_le ..))

/-- Refuse an array whose elements cannot all be there. -/
def room (count minSize : Nat) : Reader Unit := fun ctx c =>
  let need := need count minSize
  let avail := c.rest.length
  if avail < need then fail (.truncated (need - avail)) ctx c else .ok () c

/-- `count` elements, the first of which has index `i`. -/
def repeated (elem : Reader α) : (i count : Nat) → Reader (List α)
  | _, 0 => return []
  | i, count + 1 => do
    let x ← within (.index i) elem
    return x :: (← repeated elem (i + 1) count)

/-- Elements announced by a flag each, the first of which has index `i`. At most `fuel` flags
are read. -/
def announced (elem : Reader α) : (fuel i : Nat) → Reader (List α)
  | 0, _ => return []
  | fuel + 1, i => do
    if ← flag .optionalFlag then
      let x ← within (.index i) elem
      return x :: (← announced elem fuel (i + 1))
    else return []

/-- Elements announced by a flag each. A flag takes four octets, so what is left of the
message bounds their number. -/
def chain (elem : Reader α) : Reader (List α) := fun ctx c =>
  announced elem (c.rest.length / 4 + 1) 0 ctx c

end Reader

/-! ## Values -/

namespace Shape

open Reader

mutual

/-- Read a value of the shape. -/
def decode : Shape → Reader Value
  | .void => return .void
  | .int => return .int (← Reader.int)
  | .uint => return .uint (← Reader.uint)
  | .hyper => return .hyper (← Reader.hyper)
  | .uhyper => return .uhyper (← Reader.uhyper)
  | .bool => return .bool (← Reader.bool)
  | .enum table fixed => Reader.enum table fixed
  | .octets (.fixed n) _ => return .octets (← Reader.octets n.toNat)
  | .octets (.variable max) ddp => item .octets max ddp
  | .text max ddp => item .text max ddp
  | .array elem extent => do
    let count ← match extent with
      | .fixed n => pure n
      | .variable max => Reader.length max
    room count.toNat elem.minSize
    return .array (← repeated elem.decode 0 count.toNat)
  | .chain elem => return .array (← Reader.chain elem.decode)
  | .optional inner => do
    if ← flag .optionalFlag then return .optional (some (← inner.decode))
    else return .optional none
  | .struct fields => return .struct (← decodeFields fields)
  | .union disc arms fallback => do
    let start ← offset
    let d ← disc.decode
    match d.armCode? with
    | none => failAt start (.mismatch .discriminant)
    | some code =>
      let (arm, v) ← decodeArm arms code (decodeFallback fallback start code)
      return .union d arm v

/-- Read the fields of a structure in order. -/
def decodeFields : List (String × Shape) → Reader (List (String × Value))
  | [] => return []
  | (name, s) :: rest => do
    let v ← within (.name name) s.decode
    return (name, v) :: (← decodeFields rest)

/-- Read the first arm of that code. -/
def decodeArm : List (Int × String × Shape) → (code : Int) → (otherwise : Reader (String × Value)) →
    Reader (String × Value)
  | [], _, otherwise => otherwise
  | (c, name, s) :: rest, code, otherwise =>
    if c = code then return (name, ← within (.name name) s.decode)
    else decodeArm rest code otherwise

/-- Read the default arm, or refuse the discriminant that has no arm. -/
def decodeFallback : Option (String × Shape) → (start : Nat) → (code : Int) →
    Reader (String × Value)
  | none, start, code => failAt start (.noArm code)
  | some (name, s), _, _ => return (name, ← within (.name name) s.decode)

end

end Shape

/-- Read one value of a shape at `offset` of a message: the value and the offset behind it. -/
def decode (message : Bytes) (offset : Nat) (shape : Shape) : Except DecodeError (Value × Nat) :=
  match shape.decode {} (Cursor.at message offset) with
  | .ok v c => .ok (v, c.offset)
  | .error e _ => .error e

end NfsWire
