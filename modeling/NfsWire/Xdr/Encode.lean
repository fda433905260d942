import NfsWire.Fault
import NfsWire.Xdr.Shape
import NfsWire.Xdr.Value

/-!
# Writing values

A writer is given the path of the value it writes and the number of octets written before,
and answers with the octets it adds, or with an error at the place it got to. Writers are
put together with `Writer.then`, which counts the octets on behalf of both.

Padding is always zero, and a length word holds the number of octets or elements, as far as
a word of 32 bits can say it.
-/

namespace NfsWire

/-- The octets of a value, given its path and the octets written before it. -/
abbrev Writer := (path : FieldPath) → (written : Nat) → Except EncodeError Bytes

namespace Writer

/-- Write these octets. -/
def emit (data : Bytes) : Writer := fun _ _ => .ok data

/-- Stop with a fault. -/
def fail (fault : Fault) : Writer := fun path written => .error { fault, path, offset := written }

/-- Write `a` and behind it `b`. -/
def «then» (a b : Writer) : Writer := fun path written => do
  let x ← a path written
  let y ← b path (written + x.length)
  return x ++ y

/-- Write a part of the value. -/
def within (segment : Segment) (part : Writer) : Writer := fun path written =>
  part (path ++ [segment]) written

/-- Write the elements in order, the first of which has index `i`. -/
def each {α : Type} (elem : α → Writer) : (i : Nat) → List α → Writer
  | _, [] => emit []
  | i, x :: rest => (within (.index i) (elem x)).then (each elem (i + 1) rest)

def uint (w : UInt32) : Writer := emit (Bytes.ofNat 4 w.toNat)

def uhyper (w : UInt64) : Writer := emit (Bytes.ofNat 8 w.toNat)

/-- Data and its padding. -/
def octets (data : Bytes) : Writer :=
  emit (data ++ List.replicate (Bytes.padding data.length) 0)

/-- A length word, refused when it says more than the maximum. -/
def length (n : Nat) (max : Option UInt32) : Writer :=
  let word := UInt32.ofNat n
  match max with
  | some max => if max < word then fail (.tooLong word max) else uint word
  | none => uint word

/-- Data with its length in front. -/
def counted (data : Bytes) (max : Option UInt32) : Writer :=
  (length data.length max).then (octets data)

end Writer

namespace Shape

open Writer

mutual

/-- Write a value with the shape. -/
def encode : Shape → Value → Writer
  | _, .unresolved _ => fail (.mismatch .unresolved)
  | .void, .void => emit []
  | .int, .int v => Writer.uint v.toUInt32
  | .uint, .uint v => Writer.uint v
  | .hyper, .hyper v => Writer.uhyper v.toUInt64
  | .uhyper, .uhyper v => Writer.uhyper v
  | .bool, .bool b => Writer.uint (if b then 1 else 0)
  | .enum .., .enum code _ => Writer.uint code.toUInt32
  | .enum .., .int v => Writer.uint v.toUInt32
  | .octets (.fixed n) _, .octets data =>
    if data.length = n.toNat then Writer.octets data else fail (.mismatch .fixedOpaque)
  | .octets (.variable max) _, .octets data => counted data max
  | .text max _, .text data => counted data max
  | .array elem (.fixed n), .array items =>
    if items.length = n.toNat then each elem.encode 0 items else fail (.mismatch .fixedArray)
  | .array elem (.variable max), .array items =>
    (Writer.length items.length max).then (each elem.encode 0 items)
  | .chain elem, .array items =>
    (each (fun x => (Writer.uint 1).then (elem.encode x)) 0 items).then (Writer.uint 0)
  | .optional _, .optional none => Writer.uint 0
  | .optional inner, .optional (some v) => (Writer.uint 1).then (inner.encode v)
  | .struct fields, .struct record => encodeFields fields record
  | .union disc arms fallback, .union d arm v =>
    match d.armCode? with
    | none => fail (.mismatch .discriminant)
    | some code =>
      encodeArm arms code (disc.encode d) arm v
        (encodeFallback fallback code (disc.encode d) arm v)
  | _, _ => fail (.mismatch .kind)

/-- Write the fields in the order of the shape, each taken from the record by its name. -/
def encodeFields : List (String × Shape) → Fields → Writer
  | [], _ => emit []
  | (name, s) :: rest, record =>
    match record.find? name with
    | none => within (.name name) (fail (.mismatch .missingField))
    | some v => (within (.name name) (s.encode v)).then (encodeFields rest record)

/-- Write a discriminant and the first arm of its code, if that is the arm of the value. -/
def encodeArm : List (Int × String × Shape) → (code : Int) → (disc : Writer) → (arm : String) →
    Value → (otherwise : Writer) → Writer
  | [], _, _, _, _, otherwise => otherwise
  | (c, name, s) :: rest, code, disc, arm, v, otherwise =>
    if c = code then
      if name = arm then disc.then (within (.name name) (s.encode v)) else fail (.mismatch .arm)
    else encodeArm rest code disc arm v otherwise

/-- Write a discriminant and the default arm, if that is the arm of the value. -/
def encodeFallback : Option (String × Shape) → (code : Int) → (disc : Writer) → (arm : String) →
    Value → Writer
  | none, code, _, _, _ => fail (.noArm code)
  | some (name, s), _, disc, arm, v =>
    if name = arm then disc.then (within (.name name) (s.encode v)) else fail (.mismatch .arm)

end

end Shape

/-- Write a value with a shape. -/
def encode (value : Value) (shape : Shape) : Except EncodeError Bytes :=
  shape.encode value [] 0

end NfsWire
