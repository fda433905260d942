import NfsWire.Capture.Flow

/-!
# Digests of flows

Flows are spread evenly by a keyed digest of their endpoints: SipHash with one round per word
and three at the end, under a key of zeros. An endpoint enters it as its version (a word of
64 bits: 0 for version 4, 1 for version 6), its address, its port, and for version 6 a flow
label of zero and its zone; all numbers but the address with the least significant octet
first.
-/

namespace NfsWire

/-- The state of a digest. -/
structure Sip where
  v0 : UInt64
  v1 : UInt64
  v2 : UInt64
  v3 : UInt64
  deriving DecidableEq, Repr, Inhabited

namespace Sip

/-- The bits moved `n` places up, those that leave at the top coming in at the bottom. -/
def rotate (x : UInt64) (n : UInt64) : UInt64 := (x <<< n) ||| (x >>> (64 - n))

/-- The state under a key of zeros: the words of a fixed text. -/
def start : Sip where
  v0 := 0x736f6d6570736575
  v1 := 0x646f72616e646f6d
  v2 := 0x6c7967656e657261
  v3 := 0x7465646279746573

/-- One round of mixing. -/
def round (s : Sip) : Sip :=
  let a0 := s.v0 + s.v1
  let a1 := rotate s.v1 13 ^^^ a0
  let a2 := s.v2 + s.v3
  let a3 := rotate s.v3 16 ^^^ a2
  let b0 := rotate a0 32 + a3
  let b3 := rotate a3 21 ^^^ b0
  let b2 := a2 + a1
  let b1 := rotate a1 17 ^^^ b2
  ⟨b0, b1, rotate b2 32, b3⟩

/-- Take in one word. -/
def absorb (s : Sip) (word : UInt64) : Sip :=
  let s := round { s with v3 := s.v3 ^^^ word }
  { s with v0 := s.v0 ^^^ word }

/-- A number whose least significant octet comes first. -/
def littleEndian (bs : Bytes) : UInt64 := UInt64.ofNat (Bytes.toNat bs.reverse)

/-- Take in octets, eight at a time. The last word has what is left and, on top, the length. -/
def absorbAll (length : Nat) : Sip → Bytes → Sip
  | s, a :: b :: c :: d :: e :: f :: g :: h :: rest =>
    absorbAll length (s.absorb (littleEndian [a, b, c, d, e, f, g, h])) rest
  | s, rest => s.absorb (littleEndian rest ||| (UInt64.ofNat (length % 256) <<< 56))

/-- The digest of octets. -/
def digest (bs : Bytes) : UInt64 :=
  let s := absorbAll bs.length start bs
  let s := round (round (round { s with v2 := s.v2 ^^^ 0xff }))
  s.v0 ^^^ s.v1 ^^^ s.v2 ^^^ s.v3

end Sip

/-- The low `width` octets of a number, least significant first. -/
def Bytes.ofNatReversed (width n : Nat) : Bytes := (Bytes.ofNat width n).reverse

/-- What of an endpoint enters a digest. -/
def Endpoint.digestInput (e : Endpoint) : Bytes :=
  let port := Bytes.ofNatReversed 2 e.port.toNat
  match e.address with
  | .v4 _ => Bytes.ofNatReversed 8 0 ++ e.address.octets ++ port
  | .v6 _ _ zone =>
    Bytes.ofNatReversed 8 1 ++ e.address.octets ++ port ++ Bytes.ofNatReversed 4 0 ++
      Bytes.ofNatReversed 4 zone.toNat

/-- The number by which a flow chooses among equals. -/
def Flow.digest (f : Flow) : UInt64 :=
  Sip.digest (f.client.digestInput ++ f.server.digestInput)

end NfsWire
