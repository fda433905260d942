/-!
# Errors of settings

A document of settings may be malformed or empty, or one of its values may be of no use. The
causes are kept apart from their wording.
-/

namespace NfsWire.Settings

/-- Why a value is of no use. -/
inductive Complaint where
  | notUnsigned
  | unreadableMemory
  | unknownMemoryUnit
  | unreadableTime
  | unknownTimeUnit
  | negativeTime
  | unknownEviction
  deriving DecidableEq, Repr, Inhabited

def Complaint.message : Complaint → String
  | .notUnsigned => "not an unsigned integer"
  | .unreadableMemory => "Error parsing the memory value"
  | .unknownMemoryUnit => "Invalid memory unit"
  | .unreadableTime => "Error parsing the time value"
  | .unknownTimeUnit => "Invalid time unit"
  | .negativeTime => "Negative time value"
  | .unknownEviction => "expected none, packets or time"

/-- Why settings cannot be used. -/
inductive SettingsError where
  /-- The text is no document. -/
  | malformed
  /-- The text holds no document. -/
  | empty
  | invalid (key value : String) (why : Complaint)
  deriving DecidableEq, Repr, Inhabited

/-- The wording of an error; that of a malformed text is left to the caller. -/
def SettingsError.message? : SettingsError → Option String
  | .malformed => none
  | .empty => some "configuration document is empty"
  | .invalid key value why =>
    some ("invalid value '" ++ value ++ "' for " ++ key ++ ": " ++ why.message)

end NfsWire.Settings
