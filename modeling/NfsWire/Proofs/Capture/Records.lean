import NfsWire.Capture.Decoder

/-!
# Taking a stream apart, and handling what comes out

`handleRecords` takes a record off the stream, handles it, and goes on. Handling a record does not
touch the stream, so one may as well take all records off first (`harvest`) and then handle them one
after the other (`handleEach`): `handleRecords_eq`. What is true of streams is then a matter of
octets alone, and what is true of the decoder a matter of messages.
-/

namespace NfsWire

/-- What a stream gives. -/
structure Harvest where
  records : List Bytes
  /-- The octets that no record used. -/
  rest : Bytes
  /-- The error at which the boundaries of records were lost. -/
  broken : Option DecodeError
  deriving DecidableEq, Repr

/-- Take all records off a stream. `used` counts the octets taken before. -/
def harvest (max : Nat) (used : Nat) (data : Bytes) : Harvest :=
  if data.length = 0 then { records := [], rest := [], broken := none }
  else
    match _h : Rpc.readRecord data max with
    | .ok (record, n) =>
      let later := harvest max (used + n) (data.drop n)
      { later with records := record :: later.records }
    | .error e =>
      if e.fault.isTruncated then { records := [], rest := data, broken := none }
      else { records := [], rest := [], broken := some (e.atBase used) }
termination_by data.length
decreasing_by
  have := Rpc.used_of_readRecord _h
  simp only [List.length_drop]
  omega

/-- Decode and pair messages one after the other. -/
def handleEach (s : DecoderSettings) (b : Books) (p : Packet) : List Bytes → Books × List Event
  | [] => (b, [])
  | message :: rest =>
    let (b, told) := handleMessage s b p message none none
    let (b, more) := handleEach s b p rest
    (b, told ++ more)

/-- Report a lost stream. -/
def Books.lose (b : Books) (p : Packet) : Option DecodeError → Books × List Event
  | none => (b, [])
  | some e => b.fail p e

section Harvest

variable {max used : Nat} {data : Bytes}

theorem harvest_nil (max used : Nat) : harvest max used [] = ⟨[], [], none⟩ := by
  rw [harvest]
  rfl

theorem length_ne_zero_of_readRecord {record : Bytes} {n : Nat}
    (h : Rpc.readRecord data max = .ok (record, n)) : data.length ≠ 0 := by
  have := Rpc.used_of_readRecord h
  omega

theorem harvest_record {record : Bytes} {n : Nat}
    (h : Rpc.readRecord data max = .ok (record, n)) :
    harvest max used data =
      { harvest max (used + n) (data.drop n) with
        records := record :: (harvest max (used + n) (data.drop n)).records } := by
  rw [harvest, if_neg (length_ne_zero_of_readRecord h)]
  split
  next heq =>
    rw [h] at heq
    cases heq
    rfl
  next heq =>
    rw [h] at heq
    cases heq

theorem harvest_error (hdata : data ≠ []) {e : DecodeError}
    (h : Rpc.readRecord data max = .error e) :
    harvest max used data =
      if e.fault.isTruncated then ⟨[], data, none⟩ else ⟨[], [], some (e.atBase used)⟩ := by
  rw [harvest, if_neg (by simpa using hdata)]
  split
  next heq =>
    rw [h] at heq
    cases heq
  next heq =>
    rw [h] at heq
    cases heq
    rfl

end Harvest

/-- **All records may be taken off the stream before the first is handled.** -/
theorem handleRecords_eq (s : DecoderSettings) (b : Books) (p : Packet) (used : Nat)
    (data : Bytes) :
    handleRecords s b p used data =
      let taken := harvest s.maxRecord used data
      let handled := handleEach s b p taken.records
      let lost := handled.1.lose p taken.broken
      (lost.1, taken.rest, handled.2 ++ lost.2) := by
  rw [handleRecords]
  by_cases hdata : data = []
  · subst hdata
    rw [harvest_nil]
    rfl
  · rw [if_neg (by simpa using hdata)]
    split
    next record n hread =>
      rw [harvest_record hread]
      have hrest := handleRecords_eq s (handleMessage s b p record none none).1 p (used + n)
        (data.drop n)
      simp only [hrest, handleEach, List.append_assoc]
    next e hread =>
      rw [harvest_error hdata hread]
      split
      · rfl
      · rfl
termination_by data.length
decreasing_by
  have := Rpc.used_of_readRecord ‹_›
  simp only [List.length_drop]
  omega

end NfsWire
