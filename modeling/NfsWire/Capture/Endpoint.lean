import NfsWire.Text.Numeral
import NfsWire.Bytes

/-!
# Endpoints

An endpoint is an IP address and a port. Its text is `10.0.0.1:800` or `[fe80::1]:800`, with
the canonical spelling of version 6 addresses: groups in lower-case hexadecimal without
leading zeros, the first of the longest runs of at least two zero groups left out, the last
32 bits of an address that maps one of version 4 as dotted decimals, and a zone that is not
zero behind a percent sign.

Endpoints are ordered by version, then by address, then by port.
-/

namespace NfsWire

/-- An IP address. Those of version 6 come as two halves and the zone they are valid in. -/
inductive Address where
  | v4 (bits : UInt32)
  | v6 (high low : UInt64) (zone : UInt32)
  deriving DecidableEq, Repr, Inhabited

/-- One end of a conversation. -/
structure Endpoint where
  address : Address
  port : UInt16
  deriving DecidableEq, Repr, Inhabited

namespace Address

/-- The octets of the address, most significant first. -/
def octets : Address → Bytes
  | .v4 bits => Bytes.ofNat 4 bits.toNat
  | .v6 high low _ => Bytes.ofNat 8 high.toNat ++ Bytes.ofNat 8 low.toNat

/-! ## Text -/

/-- Decimal octets with points between them. -/
def dottedText (bits : Nat) : String :=
  ".".intercalate ((Bytes.ofNat 4 bits).map fun b => toString b.toNat)

/-- The eight groups of 16 bits of a version 6 address. -/
def groups (high low : UInt64) : List Nat :=
  let half (w : Nat) : List Nat :=
    [w / 0x1000000000000, w / 0x100000000 % 0x10000, w / 0x10000 % 0x10000, w % 0x10000]
  half high.toNat ++ half low.toNat

/-- Groups in hexadecimal with colons between them. -/
def groupsText (gs : List Nat) : String :=
  ":".intercalate (gs.map fun g => String.ofList (Nat.toDigits 16 g))

/-- How many zeros a list starts with. -/
def leadingZeros (gs : List Nat) : Nat := (gs.takeWhile (· == 0)).length

/-- Start and length of the first of the longest runs of zeros; `i` is the index of the first
group. -/
def longestZeros : (i : Nat) → List Nat → Nat × Nat
  | i, [] => (i, 0)
  | i, g :: gs =>
    let here := leadingZeros (g :: gs)
    let best := longestZeros (i + 1) gs
    if best.2 ≤ here then (i, here) else best

/-- A version 6 address without its zone. -/
def v6Text (high low : UInt64) : String :=
  if high = 0 ∧ low.toNat / UInt32.size = 0xffff then
    "::ffff:" ++ dottedText (low.toNat % UInt32.size)
  else
    let gs := groups high low
    let (start, n) := longestZeros 0 gs
    if 2 ≤ n then groupsText (gs.take start) ++ "::" ++ groupsText (gs.drop (start + n))
    else groupsText gs

/-! ## Reading -/

/-- Four decimal octets with points between them. -/
def parseDotted? (s : String) : Option Nat :=
  match (s.splitOn ".").mapM Numeral.natural64? with
  | some parts =>
    if parts.length = 4 ∧ parts.all (· < 256) then some (parts.foldl (· * 256 + ·) 0) else none
  | none => none

/-- Hexadecimal groups with colons between them; the last one may be dotted decimals. -/
def parseGroups? (s : String) : Option (List Nat) :=
  if s.isEmpty then some []
  else
    ((s.splitOn ":").mapM fun (g : String) =>
      if g.contains '.' then (parseDotted? g).map fun n => [n / 0x10000, n % 0x10000]
      else (Numeral.digits? 16 g.toList).bind fun n => if n < 0x10000 then some [n] else none)
    |>.map List.flatten

/-- The halves of an address with these groups. -/
def ofGroups (gs : List Nat) (zone : UInt32) : Address :=
  let half (part : List Nat) := UInt64.ofNat (part.foldl (· * 0x10000 + ·) 0)
  .v6 (half (gs.take 4)) (half (gs.drop 4)) zone

/-- A version 6 address, with or without a gap of zeros. -/
def parseV6? (s : String) (zone : UInt32) : Option Address :=
  match s.splitOn "::" with
  | [whole] =>
    (parseGroups? whole).bind fun gs => if gs.length = 8 then some (ofGroups gs zone) else none
  | [front, back] => do
    let fs ← parseGroups? front
    let bs ← parseGroups? back
    if fs.length + bs.length < 8 then
      return ofGroups (fs ++ List.replicate (8 - fs.length - bs.length) 0 ++ bs) zone
    else none
  | _ => none

end Address

namespace Endpoint

/-- The endpoint as text. -/
def text (e : Endpoint) : String :=
  let port := ":" ++ toString e.port.toNat
  match e.address with
  | .v4 bits => Address.dottedText bits.toNat ++ port
  | .v6 high low zone =>
    let suffix := if zone = 0 then "" else "%" ++ toString zone.toNat
    "[" ++ Address.v6Text high low ++ suffix ++ "]" ++ port

/-- The endpoint that a text names. -/
def ofText? (s : String) : Option Endpoint := do
  let parts := s.splitOn ":"
  let port ← Numeral.natural64? (parts.getLastD "")
  if UInt16.size ≤ port then none
  let host := ":".intercalate parts.dropLast
  let port := UInt16.ofNat port
  if host.startsWith "[" ∧ host.endsWith "]" then
    let inner := String.ofList (host.toList.drop 1).dropLast
    match inner.splitOn "%" with
    | [plain] => return { address := ← Address.parseV6? plain 0, port }
    | [plain, zone] =>
      let zone := UInt32.ofNat (← Numeral.natural64? zone)
      return { address := ← Address.parseV6? plain zone, port }
    | _ => none
  else return { address := .v4 (UInt32.ofNat (← Address.parseDotted? host)), port }

/-- A key by which endpoints are ordered: version, address, port and zone. -/
def orderKey (e : Endpoint) : List Nat :=
  match e.address with
  | .v4 bits => [4, bits.toNat, 0, e.port.toNat, 0]
  | .v6 high low zone => [6, high.toNat, low.toNat, e.port.toNat, zone.toNat]

end Endpoint

/-- Lexicographic order on lists of numbers of one length. -/
def lexLe : List Nat → List Nat → Bool
  | a :: as, b :: bs => a < b || (a == b && lexLe as bs)
  | [], _ => true
  | _ :: _, [] => false

end NfsWire
