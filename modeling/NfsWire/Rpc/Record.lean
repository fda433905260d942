import NfsWire.Fault

/-!
# Records in a byte stream

A byte stream carries messages as *records*. A record is a run of fragments, each of which
starts with a mark: one bit that says whether the fragment is the last of its record, and 31
bits with its length.

Two readings of a stream are made:

* `splitRecord` joins the fragments of the first record, or says how many octets it lacks;
* `overrun?` walks over the marks alone and finds the first one at which the record is known
  to be longer than a limit, even where the data has not arrived.

`readRecord` lets the second one go first, so that nobody waits for a record of absurd size.
-/

namespace NfsWire.Rpc

/-- What stands in front of a fragment. -/
structure RecordMark where
  /-- Whether the fragment is the last of its record. -/
  last : Bool
  length : Nat
  deriving DecidableEq, Repr, Inhabited

namespace RecordMark

/-- The mark in a word: the top bit and the rest. -/
def ofWord (w : Nat) : RecordMark :=
  { last := decide (0x80000000 ≤ w), length := w % 0x80000000 }

/-- The mark at the front of a stream and what follows it. Without a single octet, one is
asked for; with too few, a whole word is. -/
def read : Bytes → Except Nat (RecordMark × Bytes)
  | a :: b :: c :: d :: rest => .ok (ofWord (Bytes.toNat [a, b, c, d]), rest)
  | [] => .error 1
  | _ => .error 4

theorem length_of_read {input rest : Bytes} {mark : RecordMark}
    (h : read input = .ok (mark, rest)) : input.length = rest.length + 4 := by
  unfold read at h
  split at h <;> simp_all

end RecordMark

/-- The first record of a stream and what follows it, or how many octets are asked for. -/
def splitRecord (input : Bytes) : Except Nat (Bytes × Bytes) :=
  match _ : RecordMark.read input with
  | .error n => .error n
  | .ok (mark, rest) =>
    let data := rest.take mark.length
    if data.length < mark.length then .error (mark.length - data.length)
    else if mark.last then .ok (data, rest.drop mark.length)
    else (splitRecord (rest.drop mark.length)).map fun (more, rest) => (data ++ more, rest)
termination_by input.length
decreasing_by
  have := RecordMark.length_of_read ‹RecordMark.read input = _›
  simp only [List.length_drop]
  omega

/-- The first mark at which the fragments of the first record exceed `max`: the sum of their
lengths and the offset of the mark. `total` and `offset` count what was passed before. -/
def overrunFrom? (max : Nat) (input : Bytes) (total offset : Nat) : Option (Nat × Nat) :=
  match _ : RecordMark.read input with
  | .error _ => none
  | .ok (mark, rest) =>
    if max < total + mark.length then some (total + mark.length, offset)
    else if mark.last ∨ rest.length < mark.length then none
    else overrunFrom? max (rest.drop mark.length) (total + mark.length) (offset + 4 + mark.length)
termination_by input.length
decreasing_by
  have := RecordMark.length_of_read ‹RecordMark.read input = _›
  simp only [List.length_drop]
  omega

/-- The first mark at which the first record of a stream is known to exceed `max`. -/
def overrun? (max : Nat) (input : Bytes) : Option (Nat × Nat) :=
  overrunFrom? max input 0 0

/-- A number as far as a word of 32 bits holds it. -/
def clampWord (n : Nat) : UInt32 := UInt32.ofNat (min n (UInt32.size - 1))

/-- An error in the framing of records. -/
def framingError (fault : Fault) (offset : Nat) : DecodeError :=
  { protocol := some .rpc, fault, path := [.name "record_mark"], offset }

/-- The first record of a stream and the number of octets it takes there. -/
def readRecord (input : Bytes) (max : Nat) : Except DecodeError (Bytes × Nat) :=
  match overrun? max input with
  | some (total, offset) =>
    .error (framingError (.tooLong (clampWord total) (clampWord max)) offset)
  | none =>
    match splitRecord input with
    | .ok (record, rest) => .ok (record, input.length - rest.length)
    | .error needed => .error (framingError (.truncated needed) input.length)

/-! ## What a record takes -/

/-- At least one mark stands in front of a record. -/
theorem length_of_splitRecord {input record rest : Bytes}
    (h : splitRecord input = .ok (record, rest)) : rest.length + 4 ≤ input.length := by
  rw [splitRecord] at h
  split at h
  · cases h
  next mark tail hread =>
    have hlen := RecordMark.length_of_read hread
    simp only at h
    split at h
    · cases h
    · split at h
      · cases h
        simp only [List.length_drop]
        omega
      · cases hmore : splitRecord (tail.drop mark.length) with
        | error n =>
          rw [hmore] at h
          cases h
        | ok more =>
          rw [hmore] at h
          cases h
          have hrest := length_of_splitRecord hmore
          simp only [List.length_drop] at hrest
          omega
termination_by input.length
decreasing_by
  simp only [List.length_drop]
  omega

/-- A record takes at least one octet, and no more than there are. -/
theorem used_of_readRecord {input record : Bytes} {max n : Nat}
    (h : readRecord input max = .ok (record, n)) : 0 < n ∧ n ≤ input.length := by
  unfold readRecord at h
  split at h
  · cases h
  · split at h
    · cases h
      have := length_of_splitRecord ‹_›
      omega
    · cases h

end NfsWire.Rpc
