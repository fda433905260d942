import NfsWire.Json
import NfsWire.Xdr.Value

/-!
# Values as JSON

Structures and unions become objects, and a union shows its discriminant next to its arm.
A code is shown with its number and its name. Text is shown as text where it is well-formed
UTF-8; other text, and all opaque data, as hexadecimal digits.
-/

namespace NfsWire

def ChunkRef.toJson (r : ChunkRef) : Json :=
  .obj [("kind", .str r.kind.name), ("index", .nat r.index), ("position", .nat r.position.toNat),
    ("length", .nat r.length.toNat), ("handles", .arr (r.handles.map (.nat ·.toNat)))]

namespace Value

/-- A code's name, or a label that shows the bare number. -/
def codeLabel (code : Int32) (name : Option String) : String :=
  name.getD (unnamedLabel code)

mutual

def toJson : Value → Json
  | .void => .null
  | .int v => .num v.toInt
  | .uint v => .nat v.toNat
  | .hyper v => .num v.toInt
  | .uhyper v => .nat v.toNat
  | .bool b => .bool b
  | .enum code name =>
    .obj [("value", .num code.toInt), ("name", .str (codeLabel code name))]
  | .octets data => .str (Bytes.toHex data)
  | .text data => .str ((Bytes.toText? data).getD (Bytes.toHex data))
  | .array items => .arr (itemsToJson items)
  | .struct fields => .obj (fieldsToJson fields [])
  | .union disc arm value =>
    .obj (Json.insert [("discriminant", disc.toJson)] arm value.toJson)
  | .optional none => .null
  | .optional (some v) => v.toJson
  | .unresolved ref => .obj [("unresolved", ref.toJson)]

def itemsToJson : List Value → List Json
  | [] => []
  | v :: rest => v.toJson :: itemsToJson rest

/-- Add the fields to the members of an object; a repeated name keeps its last value. -/
def fieldsToJson : List (String × Value) → Json.Members → Json.Members
  | [], members => members
  | (name, v) :: rest, members => fieldsToJson rest (Json.insert members name v.toJson)

end

end Value

end NfsWire
