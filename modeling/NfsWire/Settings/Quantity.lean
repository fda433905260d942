import NfsWire.Decimal
import NfsWire.Settings.Error
import NfsWire.Text.Blank
import NfsWire.Text.Numeral
import NfsWire.Time

/-!
# Quantities

An amount of memory or of time is written as a number and a unit: `64kb`, `1.5 s`, `30`.
Blanks may stand around both, and what stands on a later line than the unit is not read.

A number has digits with or without a point among them, and may have an exponent. The words
`nan` and `inf` are numbers too, in any case but without a sign. An amount is counted in
floating point and cut to a word of 64 bits at the end, so one beyond the greatest word is
that word, and one that is negative or no number is 0.
-/

namespace NfsWire.Settings

/-! ## Numbers -/

/-- A sign, which may be missing; the flag tells a minus. -/
def sign : List Char → Bool × List Char
  | '+' :: cs => (false, cs)
  | '-' :: cs => (true, cs)
  | cs => (false, cs)

/-- The value of a run of digits. -/
def digitsValue (digits : List Char) : Nat := (Numeral.digits? 10 digits).getD 0

/-- The digits of a number, of which at least one stands before or behind the point. -/
def mantissa? (cs : List Char) : Option (Decimal × List Char) :=
  let whole := cs.takeWhile Char.isDigit
  match cs.dropWhile Char.isDigit with
  | '.' :: rest =>
    let fraction := rest.takeWhile Char.isDigit
    if whole.isEmpty && fraction.isEmpty then none
    else some (⟨digitsValue (whole ++ fraction), -fraction.length⟩, rest.dropWhile Char.isDigit)
  | rest => if whole.isEmpty then none else some (⟨digitsValue whole, 0⟩, rest)

/-- The exponent of a number, which may be missing, but not its digits behind the mark. -/
def exponent? : List Char → Option (Int × List Char)
  | [] => some (0, [])
  | c :: cs =>
    if c == 'e' || c == 'E' then
      let (negative, cs) := sign cs
      let digits := cs.takeWhile Char.isDigit
      let power : Int := digitsValue digits
      if digits.isEmpty then none
      else some (if negative then -power else power, cs.dropWhile Char.isDigit)
    else some (0, c :: cs)

/-- The numbers that are written as words of three letters. -/
def numberWord? (letters : List Char) : Option Float :=
  match letters.map Char.toLower with
  | ['n', 'a', 'n'] => some (0.0 / 0.0)
  | ['i', 'n', 'f'] => some (1.0 / 0.0)
  | _ => none

/-- Read a number at the front of a text. -/
def number? (cs : List Char) : Option (Float × List Char) :=
  let (negative, body) := sign cs
  match mantissa? body with
  | some (m, rest) =>
    (exponent? rest).map fun (power, rest) =>
      let x := Decimal.toFloat ⟨m.digits, m.exponent + power⟩
      (if negative then -x else x, rest)
  | none => (numberWord? (cs.take 3)).map (·, cs.drop 3)

/-! ## Numbers with units -/

/-- A number and its unit, in lower case. -/
structure Quantity where
  amount : Float
  unit : String

/-- What may stand in front of a number and of a unit. -/
def isGap (c : Char) : Bool := c == ' ' || c == '\t' || c == '\r' || c == '\n'

/-- The first line of a text, without its end. A carriage return is part of an end only, with
a line feed behind it. -/
def firstLine? : List Char → Option (List Char)
  | [] => some []
  | c :: cs =>
    if c == '\n' then some []
    else if c == '\r' then if cs.head? == some '\n' then some [] else none
    else (firstLine? cs).map (c :: ·)

/-- Read a quantity. A unit takes at most two octets. -/
def Quantity.parse? (text : String) : Option Quantity :=
  (number? ((Text.trim text.toList).dropWhile isGap)).bind fun (amount, rest) =>
    (firstLine? (rest.dropWhile isGap)).bind fun unit =>
      let unit := String.ofList (unit.map Char.toLower)
      if unit.utf8ByteSize ≤ 2 then some ⟨amount, unit⟩ else none

/-- The octets of a unit of memory. -/
def octetsOfUnit? (unit : String) : Option Float :=
  if unit == "" || unit == "b" then some 1.0
  else if unit == "kb" then some 1024.0
  else if unit == "mb" then some 1048576.0
  else if unit == "gb" then some 1073741824.0
  else none

/-- The milliseconds of a unit of time. -/
def millisecondsOfUnit? (unit : String) : Option Float :=
  if unit == "ms" then some 1.0
  else if unit == "" || unit == "s" then some 1000.0
  else if unit == "m" then some 60000.0
  else if unit == "h" then some 3600000.0
  else none

/-- An amount of memory, in octets. -/
def memory (text : String) : Except Complaint Nat :=
  match Quantity.parse? text with
  | none => .error .unreadableMemory
  | some q =>
    match octetsOfUnit? q.unit with
    | none => .error .unknownMemoryUnit
    | some octets => .ok (q.amount * octets).toUInt64.toNat

/-- A span of time, cut to whole microseconds. -/
def span (text : String) : Except Complaint Span :=
  match Quantity.parse? text with
  | none => .error .unreadableTime
  | some q =>
    match millisecondsOfUnit? q.unit with
    | none => .error .unknownTimeUnit
    | some milliseconds =>
      if q.amount < 0.0 then .error .negativeTime
      else .ok (.ofMicroseconds (q.amount * milliseconds * 1000.0).toUInt64.toNat)

end NfsWire.Settings
