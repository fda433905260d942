/-!
# Numerals

Decimal numerals as configuration files and field paths write them: ASCII digits, with an
optional sign, and no separators. A reader refuses a number that its word cannot hold.
-/

namespace NfsWire.Numeral

/-- The value of an ASCII digit in the given base, which is at most 36. -/
def digit? (base : Nat) (c : Char) : Option Nat :=
  let n :=
    if '0' ≤ c ∧ c ≤ '9' then c.toNat - '0'.toNat
    else if 'a' ≤ c ∧ c ≤ 'z' then c.toNat - 'a'.toNat + 10
    else if 'A' ≤ c ∧ c ≤ 'Z' then c.toNat - 'A'.toNat + 10
    else base
  if n < base then some n else none

/-- Digits appended to the number `n`. -/
def continueDigits? (base : Nat) : (n : Nat) → List Char → Option Nat
  | n, [] => some n
  | n, c :: cs => (digit? base c).bind fun d => continueDigits? base (n * base + d) cs

/-- A run of at least one digit. -/
def digits? (base : Nat) : List Char → Option Nat
  | [] => none
  | cs => continueDigits? base 0 cs

/-- Digits after an optional sign; the flag says whether the sign was a minus. -/
def signed? (base : Nat) : List Char → Option (Bool × Nat)
  | '-' :: cs => (digits? base cs).map (true, ·)
  | '+' :: cs => (digits? base cs).map (false, ·)
  | cs => (digits? base cs).map (false, ·)

/-- A decimal number below 2^64, after an optional plus sign. -/
def natural64? (s : String) : Option Nat :=
  match signed? 10 s.toList with
  | some (false, n) => if n < UInt64.size then some n else none
  | _ => none

/-- A whole number of 64 bits in two's complement, after an optional sign. -/
def integer64? (base : Nat) (cs : List Char) : Option Int :=
  match signed? base cs with
  | some (true, n) => if n ≤ 0x8000000000000000 then some (-(n : Int)) else none
  | some (false, n) => if n < 0x8000000000000000 then some n else none
  | none => none

end NfsWire.Numeral
