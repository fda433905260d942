import NfsWire.Proofs.Rpc.Message
import NfsWire.Proofs.Xdr.Routes

/-!
# Where the errors of a header lie

Two readers make the errors of a header. The one that reads the message reports offsets into the
message. The other one reads the content of a system credential, which was taken out of the message
before; its errors get the path of the credential in front, and their offsets stay what they were.

In either case the error lies in the field that its path names (`LiesIn`), in what that reader was
given. For the content of a credential this is 32 octets further back in the message than the error
says (`decodeHeader_error_lies`), which the error does not tell: what is reported of the content may
lie, as an offset into the message, in front of the whole credential
(`stamp_in_front_of_credential`).
-/

namespace NfsWire.Rpc

open Shape (Reaches FailsHere)

/-- The error is one of reading a shape from the front of a buffer, under a path. It lies in the
field that the path names: not in front of it, and not behind the place where reading it stopped. -/
def LiesIn (buffer : Bytes) (shape : Shape) (strict : Bool) (outer : FieldPath) (e : DecodeError) :
    Prop :=
  ∃ e' c' route node start, shape.decode { strict } (Cursor.at buffer 0) = .error e' c' ∧
    Reaches { strict } shape (Cursor.at buffer 0) route node start ∧
    node.FailsHere (ReadContext.deeper { strict } route) start e' c' ∧
    e = (e'.inProtocol .rpc).under outer ∧ e.path = outer ++ route ∧
    start.offset ≤ e.offset ∧ e.offset ≤ c'.offset ∧ c'.offset ≤ buffer.length

/-- Octets of a message in front of the content of its credential. -/
def credBodyOffset : Nat := 32

section Lies

variable {input buffer : Bytes} {shape : Shape} {strict : Bool} {outer : FieldPath}
  {e : DecodeError} {c : Cursor}

theorem liesIn_of_decode (outer : FieldPath)
    (h : shape.decode { strict } (Cursor.at buffer 0) = .error e c) :
    LiesIn buffer shape strict outer ((e.inProtocol .rpc).under outer) := by
  obtain ⟨route, node, start, hreaches, hfails, hpath, -, hfrom, hto⟩ := Shape.located_of_decode h
  have hpass := Reader.forward_decode shape { strict } (Cursor.at buffer 0)
  rw [Reader.stop_of_error h] at hpass
  refine ⟨e, c, route, node, start, h, hreaches, hfails, rfl, ?_, ?_, ?_, ?_⟩
  · show outer ++ (e.inProtocol .rpc).path = _
    rw [DecodeError.path_inProtocol, hpath]
    rfl
  · show _ ≤ (e.inProtocol .rpc).offset
    rw [DecodeError.offset_inProtocol]
    exact hfrom
  · show (e.inProtocol .rpc).offset ≤ _
    rw [DecodeError.offset_inProtocol]
    exact hto
  · exact ((Cursor.on_at buffer 0).passes hpass).inside

theorem LiesIn.offset_le (h : LiesIn buffer shape strict outer e) : e.offset ≤ buffer.length := by
  obtain ⟨_, _, _, _, _, -, -, -, -, -, -, hto, hend⟩ := h
  exact Nat.le_trans hto hend

/-- The content of a credential stands behind eight words. -/
theorem CallsWith.body {cred : OpaqueAuth} (h : CallsWith input cred) :
    credBodyOffset + cred.body.length ≤ input.length ∧
      (input.drop credBodyOffset).take cred.body.length = cred.body := by
  obtain ⟨xid, call, rfl, -, rest, hinput⟩ := h
  have hparts : input = (Bytes.word xid ++ (Bytes.word 0 ++ (Bytes.word call.rpcVersion ++
      (Bytes.word call.program ++ (Bytes.word call.version ++ (Bytes.word call.procedure ++
        (Bytes.word call.cred.flavor ++ Bytes.word (UInt32.ofNat call.cred.body.length)))))))) ++
      (call.cred.body ++ (List.replicate (Bytes.padding call.cred.body.length) 0 ++
        (call.verf.octets ++ rest))) := by
    rw [← hinput]
    simp only [Content.octets, Call.octets, OpaqueAuth.octets, Bytes.filled, List.append_assoc]
  generalize hfront : Bytes.word xid ++ _ = front at hparts
  have hlength : front.length = credBodyOffset := by
    rw [← hfront]
    simp only [List.length_append, Bytes.length_word]
    rfl
  rw [hparts, List.drop_left' hlength, List.take_left' rfl]
  refine ⟨?_, rfl⟩
  simp only [List.length_append, hlength]
  omega

/-- **An error of a header lies in the field that its path names**, of the message or of the content
of a system credential. The latter is a part of the message, and its offsets count from where it
begins there. -/
theorem decodeHeader_error_lies (h : decodeHeader input strict = .error e) :
    LiesIn input message strict [] e ∨
      ∃ cred, CallsWith input cred ∧ cred.flavor = authSys ∧
        LiesIn cred.body authSysParms strict credBodyPath e ∧
        (input.drop credBodyOffset).take cred.body.length = cred.body ∧
        credBodyOffset ≤ (e.atBase credBodyOffset).offset ∧
        (e.atBase credBodyOffset).offset ≤ credBodyOffset + cred.body.length ∧
        credBodyOffset + cred.body.length ≤ input.length := by
  cases hread : message.decode { strict } (Cursor.at input 0) with
  | error e' c =>
    simp only [decodeHeader, hread] at h
    cases h
    exact .inl (liesIn_of_decode [] hread)
  | ok record c =>
    obtain ⟨xid, content, body, htree, -, -, hoctets, hpicked⟩ := exists_tree_of_decode hread
    rw [hpicked] at h
    cases hcomplete : content.complete strict with
    | ok full =>
      rw [hcomplete] at h
      cases h
    | error e' =>
      rw [hcomplete] at h
      cases h
      obtain ⟨call, rfl, hauth⟩ := Content.complete_error hcomplete
      cases htree with
      | call hfits _ =>
        obtain ⟨hflavor, e', c', hrefused, rfl⟩ := readAuthSys_error hauth
        have hcalls : CallsWith input call.cred :=
          ⟨xid, call, rfl, hfits, hoctets ▸ List.take_prefix ..⟩
        obtain ⟨hinside, hbody⟩ := hcalls.body
        have hlies := liesIn_of_decode credBodyPath hrefused
        have hoffset := hlies.offset_le
        refine .inr ⟨call.cred, hcalls, hflavor, hlies, hbody, ?_, ?_, hinside⟩
        · exact Nat.le_add_left ..
        · show _ + credBodyOffset ≤ _
          omega

end Lies

/-! ## A credential without content -/

/-- A call whose system credential is empty. -/
def emptyCredential : Call := { nullCall with cred := { flavor := authSys, body := [] } }

/-- How a failure is computed. -/
theorem eq_error_of_eq {α : Type} {r : Except DecodeError α} {e : DecodeError}
    (h : (match r with
      | .ok _ => none
      | .error e => some e) = some e) : r = .error e := by
  cases r with
  | ok a => cases h
  | error e' => rw [Option.some.inj h]

theorem decodeHeader_emptyCredential :
    decodeHeader (Bytes.word 7 ++ (Content.call emptyCredential).octets) false = .error
      { protocol := some .rpc, fault := .truncated 4, path := credBodyPath ++ [.name "stamp"],
        offset := 0 } :=
  eq_error_of_eq (by decide +kernel)

/-- The stamp is missing where the empty content is. -/
theorem decodeHeader_error_lies_stamp :
    ∃ (e : DecodeError) (cred : OpaqueAuth),
      decodeHeader (Bytes.word 7 ++ (Content.call emptyCredential).octets) false = .error e ∧
        e.path = credBodyPath ++ [.name "stamp"] ∧
        LiesIn cred.body authSysParms false credBodyPath e ∧
        (e.atBase credBodyOffset).offset = credBodyOffset := by
  obtain ⟨record, c, hok⟩ : ∃ record c, message.decode { strict := false }
      (Cursor.at (Bytes.word 7 ++ (Content.call emptyCredential).octets) 0) = .ok record c :=
    exists_ok_of_eq_true (by decide +kernel)
  rcases decodeHeader_error_lies decodeHeader_emptyCredential with
    ⟨e', c', _, _, _, hread, -⟩ | ⟨cred, -, -, hlies, -⟩
  · rw [hok] at hread
    cases hread
  · exact ⟨_, cred, decodeHeader_emptyCredential, rfl, hlies, rfl⟩

/-- **The offset of an error need not lie in the credential that the path names.** The content of
this one is at 32, and the error says 0. -/
theorem stamp_in_front_of_credential :
    let input := Bytes.word 7 ++ (Content.call emptyCredential).octets
    ∃ e, decodeHeader input false = .error e ∧ e.path = credBodyPath ++ [.name "stamp"] ∧
      CallsWith input emptyCredential.cred ∧ ¬ credBodyOffset ≤ e.offset := by
  refine ⟨_, decodeHeader_emptyCredential, rfl,
    ⟨7, emptyCredential, rfl, ?_, List.prefix_refl _⟩, ?_⟩
  · exact Nat.zero_le _
  · decide

end NfsWire.Rpc
