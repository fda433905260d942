import NfsWire.Proofs.Guarded.Reader
import NfsWire.Proofs.Rpc.Framing
import NfsWire.Rpc.Header
import NfsWire.Rpc.Program

/-!
# Guarded reading of records, headers and bodies

The walk over the marks of a record keeps what is left of the stream and finds offsets by
subtraction; the header and the body of a message are read with a guarded reader, and what the body
leaves over is a difference again. Each is the same as its plain counterpart.
-/

namespace NfsWire.Guarded

/-! ## Records -/

/-- The first mark at which the fragments of the first record of `input` exceed `max`. The walk
stands at `left`, the end of `input`, and comes to an end within `fuel` marks. -/
def overrunFrom? (max : Nat) (input : Bytes) : (fuel : Nat) → (left : Bytes) → (total : Nat) →
    Option (Option (Nat × Nat))
  | 0, _, _ => none
  | fuel + 1, left, total =>
    match Rpc.RecordMark.read left with
    | .error _ => some none
    | .ok (mark, rest) => do
      let total := total + mark.length
      if max < total then return some (total, ← minus input.length left.length)
      else if mark.last ∨ rest.length < mark.length then return none
      else overrunFrom? max input fuel (← slice rest mark.length rest.length) total

/-- The first record of a stream and the number of octets it takes there. -/
def readRecord (input : Bytes) (max : Nat) : Option (Except DecodeError (Bytes × Nat)) := do
  match ← overrunFrom? max input (input.length + 1) input 0 with
  | some (total, offset) =>
    return .error (Rpc.framingError (.tooLong (Rpc.clampWord total) (Rpc.clampWord max)) offset)
  | none =>
    match Rpc.splitRecord input with
    | .ok (record, rest) => return .ok (record, ← minus input.length rest.length)
    | .error needed => return .error (Rpc.framingError (.truncated needed) input.length)

theorem overrunFrom?_eq {max total offset fuel : Nat} {input left : Bytes}
    (hleft : offset + left.length = input.length) (hfuel : left.length < fuel) :
    overrunFrom? max input fuel left total =
      some (Rpc.overrunFrom? max left total offset) := by
  induction fuel generalizing left total offset with
  | zero => omega
  | succ fuel ih =>
    rw [overrunFrom?]
    cases hread : Rpc.RecordMark.read left with
    | error n =>
      rw [Rpc.overrunFrom?_error hread]
    | ok read =>
      obtain ⟨mark, rest⟩ := read
      have hlength := Rpc.RecordMark.length_of_read hread
      rw [Rpc.overrunFrom?_mark hread]
      dsimp only
      split
      · rw [minus_of_le (by omega), show input.length - left.length = offset by omega]
        rfl
      · split
        · rfl
        next hmore =>
          have hcomplete : mark.length ≤ rest.length := by
            rw [not_or] at hmore
            omega
          rw [slice_from hcomplete]
          exact ih (by rw [List.length_drop]; omega) (by rw [List.length_drop]; omega)

/-- **No slice and no difference of a record is out of range**, and the walk over its marks ends. -/
theorem readRecord_eq (input : Bytes) (max : Nat) :
    readRecord input max = some (Rpc.readRecord input max) := by
  have hwalk : overrunFrom? max input (input.length + 1) input 0 =
      some (Rpc.overrun? max input) := overrunFrom?_eq (Nat.zero_add _) (Nat.lt_succ_self _)
  unfold readRecord Rpc.readRecord
  rw [hwalk]
  simp only [Option.bind_eq_bind, Option.bind_some]
  cases Rpc.overrun? max input with
  | some found => rfl
  | none =>
    cases hsplit : Rpc.splitRecord input with
    | error needed => rfl
    | ok taken =>
      have hused := Rpc.length_of_splitRecord hsplit
      dsimp only
      rw [minus_of_le (by omega)]
      rfl

/-! ## Headers -/

/-- The content of a system credential; none for another flavor. -/
def readAuthSys (strict : Bool) (cred : Rpc.OpaqueAuth) :
    Option (Except DecodeError (Option Value)) :=
  if cred.flavor = Rpc.authSys then do
    match ← (GuardedReader.primitives.decode Rpc.authSysParms).readAt { strict } cred.body 0 with
    | .ok (v, _) => return .ok (some v)
    | .error e => return .error ((e.inProtocol .rpc).under Rpc.credBodyPath)
  else some (.ok none)

/-- The call that a message tree holds. Its credential comes first. -/
def callOf (strict : Bool) (v : Value) : Option (Except DecodeError Rpc.Call) :=
  match Rpc.pick Rpc.auth? v Rpc.credPath with
  | .error e => some (.error e)
  | .ok cred => do
    match ← readAuthSys strict cred with
    | .error e => return .error e
    | .ok authSys => return Rpc.callWith v cred authSys

/-- Pick the content of a message out of its tree. -/
def contentOf (strict : Bool) (v : Value) : Option (Except DecodeError Rpc.Content) :=
  match (v.get? "body").bind (·.union?) with
  | none => some (.error (Rpc.notAMessage ["body"]))
  | some (_, arm, content) =>
    if arm = "cbody" then do
      let call ← callOf strict v
      return .call <$> call
    else if arm = "rbody" then some (.reply <$> Rpc.replyOf v content)
    else some (.error (Rpc.notAMessage ["body"]))

/-- Read the header of a whole message. -/
def decodeHeader (input : Bytes) (strict : Bool) : Option (Except DecodeError Rpc.Header) := do
  match ← (GuardedReader.primitives.decode Rpc.message).readAt { strict } input 0 with
  | .error e => return .error (e.inProtocol .rpc)
  | .ok (record, bodyOffset) =>
    match Rpc.pick Rpc.word? record ["xid"] with
    | .error e => return .error e
    | .ok xid =>
      match ← contentOf strict record with
      | .error e => return .error e
      | .ok content => return .ok { xid, content, record, bodyOffset }

theorem readAuthSys_eq (strict : Bool) (cred : Rpc.OpaqueAuth) :
    readAuthSys strict cred = some (Rpc.readAuthSys strict cred) := by
  unfold readAuthSys Rpc.readAuthSys
  split
  · obtain ⟨v, c, hread, -, hguarded⟩ | ⟨e, c, hread, hguarded⟩ :=
      (Reader.guards_decode Rpc.authSysParms).readAt { strict } cred.body 0
    · rw [hread, hguarded]
      rfl
    · rw [hread, hguarded]
      rfl
  · rfl

theorem callOf_eq (strict : Bool) (v : Value) :
    callOf strict v = some (Rpc.callOf strict v) := by
  unfold callOf Rpc.callOf
  cases Rpc.pick Rpc.auth? v Rpc.credPath with
  | error e => rfl
  | ok cred =>
    dsimp only
    rw [readAuthSys_eq]
    show _ = some (Except.bind (Rpc.readAuthSys strict cred) _)
    cases Rpc.readAuthSys strict cred with
    | error e => rfl
    | ok authSys => rfl

theorem contentOf_eq (strict : Bool) (v : Value) :
    contentOf strict v = some (Rpc.contentOf strict v) := by
  unfold contentOf Rpc.contentOf
  cases (v.get? "body").bind (·.union?) with
  | none => rfl
  | some found =>
    obtain ⟨d, arm, content⟩ := found
    dsimp only
    rw [callOf_eq]
    split
    · rfl
    · split
      · rfl
      · rfl

/-- **No operation on a header is out of range.** -/
theorem decodeHeader_eq (input : Bytes) (strict : Bool) :
    decodeHeader input strict = some (Rpc.decodeHeader input strict) := by
  unfold decodeHeader Rpc.decodeHeader
  obtain ⟨record, c, hread, -, hguarded⟩ | ⟨e, c, hread, hguarded⟩ :=
    (Reader.guards_decode Rpc.message).readAt { strict } input 0
  · rw [hread, hguarded]
    simp only [Option.bind_eq_bind, Option.bind_some]
    show _ = some (Except.bind (Rpc.pick Rpc.word? record ["xid"]) _)
    cases Rpc.pick Rpc.word? record ["xid"] with
    | error e => rfl
    | ok xid =>
      dsimp only
      rw [contentOf_eq]
      show _ = some (Except.bind (Rpc.contentOf strict record) _)
      cases Rpc.contentOf strict record with
      | ok content => rfl
      | error e => rfl
  · rw [hread, hguarded]
    rfl

/-- Read the arguments or results of a procedure at `offset` of a message. -/
def decodeBody (program version procedure : UInt32) (kind : Rpc.BodyKind) (message : Bytes)
    (offset : Nat) (strict : Bool) (chunks : Option ChunkMap) :
    Option (Except DecodeError Rpc.Body) :=
  match Rpc.procedure? program version procedure with
  | none => some (.ok (.raw message offset))
  | some (prog, proc) => do
    let ctx : ReadContext := { strict, chunks, useWrites := kind == .results }
    match ← (GuardedReader.primitives.decode (proc.shape kind)).readAt ctx message offset with
    | .ok (value, stop) =>
      return .ok { protocol := some prog.protocol, procedure := some proc.name, value,
                   trailing := ← minus message.length stop }
    | .error e => return .error (e.inProtocol prog.protocol)

/-- **No operation on a body is out of range.** -/
theorem decodeBody_eq (program version procedure : UInt32) (kind : Rpc.BodyKind) (message : Bytes)
    (offset : Nat) (strict : Bool) (chunks : Option ChunkMap) :
    decodeBody program version procedure kind message offset strict chunks =
      some (Rpc.decodeBody program version procedure kind message offset strict chunks) := by
  unfold decodeBody Rpc.decodeBody
  cases Rpc.procedure? program version procedure with
  | none => rfl
  | some found =>
    obtain ⟨prog, proc⟩ := found
    dsimp only
    obtain ⟨value, c, hread, hc, hguarded⟩ | ⟨e, c, hread, hguarded⟩ :=
      (Reader.guards_decode (proc.shape kind)).readAt
        { strict, chunks, useWrites := kind == .results } message offset
    · rw [hread, hguarded]
      simp only [Option.bind_eq_bind, Option.bind_some]
      rw [minus_of_le hc.inside, ← hc.length_rest]
      rfl
    · rw [hread, hguarded]
      rfl

end NfsWire.Guarded
