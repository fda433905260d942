import NfsWire.Settings.Quantity
import NfsWire.Yaml.Node

/-!
# Settings

Settings are a tree: the first document of a text. A value is found by the names on the way to
it, and `null` counts as no value.

**Kinds of values.** A value is read as text, and the text as what is asked for: a switch, a
whole number, an amount of memory, or a span of time. Text that does not fit is an error, but
for a switch, which is then off. A sequence or mapping has no text, and counts as no value
where text is asked for.
-/

namespace NfsWire.Settings

open Yaml (Node)

/-- The names on the way from a node down to a value. -/
abbrev Key := List String

namespace Key

/-- A key as it is written, with dots between its names. -/
def ofText (text : String) : Key := text.splitOn "."

/-- How a key is written. -/
def toText (key : Key) : String := ".".intercalate key

end Key

/-- The first document of a text. -/
def load (text : String) : Except SettingsError Node :=
  match Yaml.documents? text with
  | none => .error .malformed
  | some [] => .error .empty
  | some (document :: _) => .ok document

/-- Whatever stands under a key. -/
def descend? (n : Node) : Key → Option Node
  | [] => some n
  | name :: key => (n.get? name).bind fun m => descend? m key

/-- Whether a node is a value. -/
def isValue : Node → Bool
  | .null | .bad => false
  | _ => true

/-- The value under a key. -/
def get? (n : Node) (key : Key) : Option Node := (descend? n key).filter isValue

/-- The text of a value that is no collection. -/
def scalarText? : Node → Option String
  | .str s => some s
  | .int i => some (toString i)
  | .real text => some text
  | .bool b => some (if b then "true" else "false")
  | _ => none

/-- The text under a key. -/
def text? (n : Node) (key : Key) : Option String := (get? n key).bind scalarText?

/-- The words that turn a switch on. -/
def isOn (word : String) : Bool := ["1", "yes", "true", "on"].contains word

/-- Whether a value turns a switch on. -/
def turnsOn : Node → Bool
  | .bool b => b
  | .str s => isOn s
  | .int i => i == 1
  | _ => false

/-- A switch that is off unless turned on. -/
def switch (n : Node) (key : Key) : Bool := (get? n key).any turnsOn

/-- A switch with a position of its own where there is no value. -/
def switchOr (n : Node) (key : Key) (absent : Bool) : Bool :=
  ((get? n key).map turnsOn).getD absent

/-- A whole number that fits a word of 64 bits; blanks around it do no harm. -/
def whole (text : String) : Except Complaint Nat :=
  match Numeral.natural64? (String.ofList (Text.trim text.toList)) with
  | some n => .ok n
  | none => .error .notUnsigned

/-- Read the text under a key, if there is any. -/
def read? (read : String → Except Complaint α) (n : Node) (key : Key) :
    Except SettingsError (Option α) :=
  match text? n key with
  | none => .ok none
  | some text =>
    match read text with
    | .ok a => .ok (some a)
    | .error why => .error (.invalid key.toText text why)

def whole? : Node → Key → Except SettingsError (Option Nat) := read? whole

def memory? : Node → Key → Except SettingsError (Option Nat) := read? memory

def span? : Node → Key → Except SettingsError (Option Span) := read? span

end NfsWire.Settings
