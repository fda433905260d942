/-!
# Capture times

Spans of time, and capture times as spans since an epoch, are counted in nanoseconds.
-/

namespace NfsWire

/-- A span of time in nanoseconds. -/
structure Span where
  nanoseconds : Nat
  deriving DecidableEq, Repr, Inhabited

namespace Span

def ofParts (seconds nanoseconds : Nat) : Span := ⟨seconds * 1000000000 + nanoseconds⟩

def ofSeconds (n : Nat) : Span := ofParts n 0

def ofMicroseconds (n : Nat) : Span := ⟨n * 1000⟩

/-- Whole seconds. -/
def seconds (s : Span) : Nat := s.nanoseconds / 1000000000

/-- What is left beyond whole seconds. -/
def subsecond (s : Span) : Nat := s.nanoseconds % 1000000000

/-- Seconds, which fit a word of 64 bits, as a floating-point number: whole seconds and fraction
are rounded one by one and then added. -/
def toFloat (s : Span) : Float :=
  (UInt64.ofNat s.seconds).toFloat + (UInt64.ofNat s.subsecond).toFloat / 1000000000.0

end Span

end NfsWire
