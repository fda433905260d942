/-!
# Log levels

Messages have a level, and a ceiling says which ones are let through: a message of a level
with a number up to that of the ceiling. Before a ceiling is set, all are.

A backend knows fewer levels than there are, so several share one. The levels that only serve
as ceilings have none, and a message of theirs reaches no backend.
-/

namespace NfsWire.Log

inductive Level where
  | notSet
  | none
  | emergency
  | alert
  | critical
  | error
  | warning
  | notice
  | info
  | perf
  | config
  | debug
  deriving DecidableEq, Repr, Inhabited

/-- The levels of a backend. -/
inductive Severity where
  | error
  | warn
  | info
  | debug
  deriving DecidableEq, Repr, Inhabited

namespace Level

/-- The rank of a level, the gravest first. -/
def number : Level → Int
  | .notSet => -1
  | .none => 0
  | .emergency => 1
  | .alert => 2
  | .critical => 3
  | .error => 4
  | .warning => 5
  | .notice => 6
  | .info => 7
  | .perf => 8
  | .config => 9
  | .debug => 10

/-- How a backend sees a level. -/
def severity? : Level → Option Severity
  | .notSet | .none => Option.none
  | .emergency | .alert | .critical | .error => some .error
  | .warning => some .warn
  | .notice | .info | .config => some .info
  | .perf | .debug => some .debug

/-- Whether a ceiling lets a level through. -/
def enabled (ceiling level : Level) : Bool :=
  ceiling == .notSet || level.number ≤ ceiling.number

end Level

/-- The last part of a path with slashes, or all of it where that is no name. -/
def baseName (path : String) : String :=
  let parts := (path.splitOn "/").filter fun part => part != "" && part != "."
  match parts.getLast? with
  | some part => if part == ".." then path else part
  | none => path

/-- What a backend is handed. -/
structure Record where
  severity : Severity
  target : String
  text : String
  deriving DecidableEq, Repr

/-- A message and where in a program it comes from. -/
structure Message where
  level : Level
  file : String
  line : Nat
  function : String
  text : String
  deriving DecidableEq, Repr

/-- The record of a message, if its level is one that a backend knows. -/
def Message.record? (m : Message) : Option Record :=
  m.level.severity?.map fun severity =>
    { severity
      target := "nfsdecode"
      text := "[" ++ baseName m.file ++ ":" ++ toString m.line ++ " " ++ m.function ++ "] "
        ++ m.text }

/-- What a backend is handed of a message under a ceiling. -/
def Message.records (m : Message) (ceiling : Level) : List Record :=
  if ceiling.enabled m.level then m.record?.toList else []

end NfsWire.Log
