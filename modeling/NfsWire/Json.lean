/-!
# JSON trees

The reports of the library are JSON. An object is a list of members with pairwise distinct
keys: `Json.insert` is the only way one grows, and writing a key that is already there
replaces its value.
-/

namespace NfsWire

/-- A JSON document. Whole numbers are exact; `float` is used for capture times only. -/
inductive Json where
  | null
  | bool (b : Bool)
  | num (n : Int)
  | float (x : Float)
  | str (s : String)
  | arr (items : List Json)
  | obj (members : List (String × Json))
  deriving Inhabited

namespace Json

/-- Members of an object, in the order in which their keys first appeared. -/
abbrev Members := List (String × Json)

/-- Write `value` under `key`, replacing what was there. -/
def insert : Members → String → Json → Members
  | [], key, value => [(key, value)]
  | (k, v) :: rest, key, value =>
    if k = key then (key, value) :: rest else (k, v) :: insert rest key value

/-- A number without a sign. -/
def nat (n : Nat) : Json := .num n

/-- Nothing is shown as `null`. -/
def option (f : α → Json) : Option α → Json
  | none => .null
  | some a => f a

end Json

end NfsWire
