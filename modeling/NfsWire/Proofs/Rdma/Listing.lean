import NfsWire.Proofs.Rdma.Grouping
import NfsWire.Proofs.Xdr.Parts
import NfsWire.Proofs.Xdr.Selection
import NfsWire.Proofs.Xdr.Splice
import NfsWire.Proofs.Xdr.Taken

/-!
# What a transport header says

The body of a header is read as a tree, and its chunks are picked out of the tree by name. The trees
that can be read are those of the three lists and those of an error (`exists_body`), and what is
picked out of such a tree is what it was built from. So a payload whose header is read starts with
the octets of just this header (`decodeHeader_ok`), and all there is to say about what was read is
said of headers that a peer has written:

* the lists are those on the wire, and there are no others with these octets
  (`lists_messageHeader`);
* the entry number `k` of the read list has its position where `entryOffset` says, so the chunks
  know where theirs are (`between_entryOffset`).

The kinds of headers that are not to be sent never get as far: the word of their kind is refused
(`decodeHeader_of_unsendable`).
-/

namespace NfsWire.Rdma

open Shape (codeValue conforms_either)

/-! ## Forms of a body -/

def PeerError.value : PeerError → Value
  | .version low high =>
    .union (codeValue errorCode 1) "range"
      (.struct [("rdma_vers_low", .uint low), ("rdma_vers_high", .uint high)])
  | .chunk => .union (codeValue errorCode 2) "void" .void

/-- The tree of a body that reports an error. -/
def errorValue (e : PeerError) : Value := .union (codeValue messageType 4) "rdma_error" e.value

section Conforms

variable {v : Value}

theorem exists_segment (h : Rdma.segment.Conforms v) : ∃ s : Segment, v = s.value := by
  obtain ⟨_, rfl, hfields⟩ := Shape.conforms_struct.mp h
  obtain ⟨_, _, rfl, hhandle, hfields⟩ := Shape.fieldsConform_cons.mp hfields
  obtain ⟨_, _, rfl, hlength, hfields⟩ := Shape.fieldsConform_cons.mp hfields
  obtain ⟨_, _, rfl, hoffset, hfields⟩ := Shape.fieldsConform_cons.mp hfields
  cases Shape.fieldsConform_nil.mp hfields
  obtain ⟨handle, rfl⟩ := Shape.conforms_uint.mp hhandle
  obtain ⟨length, rfl⟩ := Shape.conforms_uint.mp hlength
  obtain ⟨offset, rfl⟩ := Shape.conforms_uhyper.mp hoffset
  exact ⟨⟨handle, length, offset⟩, rfl⟩

theorem exists_readEntry
    (h : (Shape.struct [("position", .uint), ("target", Rdma.segment)]).Conforms v) :
    ∃ e : ReadEntry, v = e.value := by
  obtain ⟨_, rfl, hfields⟩ := Shape.conforms_struct.mp h
  obtain ⟨_, _, rfl, hposition, hfields⟩ := Shape.fieldsConform_cons.mp hfields
  obtain ⟨_, _, rfl, htarget, hfields⟩ := Shape.fieldsConform_cons.mp hfields
  cases Shape.fieldsConform_nil.mp hfields
  obtain ⟨position, rfl⟩ := Shape.conforms_uint.mp hposition
  obtain ⟨segment, rfl⟩ := exists_segment htarget
  exact ⟨⟨position, segment⟩, rfl⟩

theorem exists_writeChunk (h : targetChunk.Conforms v) :
    ∃ c : WriteChunk, c.segments.length < UInt32.size ∧ v = c.value := by
  obtain ⟨_, rfl, hfields⟩ := Shape.conforms_struct.mp h
  obtain ⟨_, _, rfl, htarget, hfields⟩ := Shape.fieldsConform_cons.mp hfields
  cases Shape.fieldsConform_nil.mp hfields
  obtain ⟨items, rfl, hcount, hitems⟩ := Shape.conforms_array.mp htarget
  obtain ⟨segments, -, rfl⟩ := Shape.exists_map_of_forall (p := fun _ => True) fun x hx => by
    obtain ⟨s, hs⟩ := exists_segment (hitems x hx)
    exact ⟨s, trivial, hs⟩
  rw [List.length_map] at hcount
  exact ⟨⟨segments⟩, (Extent.admits_variable.mp hcount).1, rfl⟩

theorem exists_listedChunks (h : (Shape.struct chunkLists).Conforms v) :
    ∃ l : ListedChunks, l.Countable ∧ v = l.value := by
  obtain ⟨_, rfl, hfields⟩ := Shape.conforms_struct.mp h
  obtain ⟨_, _, rfl, hreads, hfields⟩ := Shape.fieldsConform_cons.mp hfields
  obtain ⟨_, _, rfl, hwrites, hfields⟩ := Shape.fieldsConform_cons.mp hfields
  obtain ⟨_, _, rfl, hreply, hfields⟩ := Shape.fieldsConform_cons.mp hfields
  cases Shape.fieldsConform_nil.mp hfields
  obtain ⟨items, rfl, hitems⟩ := Shape.conforms_chain.mp hreads
  obtain ⟨entries, -, rfl⟩ := Shape.exists_map_of_forall (p := fun _ => True) fun x hx => by
    obtain ⟨e, he⟩ := exists_readEntry (hitems x hx)
    exact ⟨e, trivial, he⟩
  obtain ⟨items, rfl, hitems⟩ := Shape.conforms_chain.mp hwrites
  obtain ⟨writes, hcountable, rfl⟩ :=
    Shape.exists_map_of_forall fun x hx => exists_writeChunk (hitems x hx)
  rcases Shape.conforms_optional.mp hreply with rfl | ⟨x, rfl, hx⟩
  · exact ⟨⟨entries, writes, none⟩, by simpa [ListedChunks.Countable] using hcountable, rfl⟩
  · obtain ⟨reply, hcount, rfl⟩ := exists_writeChunk hx
    refine ⟨⟨entries, writes, some reply⟩, List.forall_mem_append.mpr ⟨hcountable, ?_⟩, rfl⟩
    exact List.forall_mem_singleton.mpr hcount

theorem exists_peerError (h : errorBody.Conforms v) : ∃ e : PeerError, v = e.value := by
  rcases conforms_either (k := 1) (j := 2) h with ⟨x, rfl, hx⟩ | ⟨x, rfl, hx⟩
  · obtain ⟨_, rfl, hfields⟩ := Shape.conforms_struct.mp hx
    obtain ⟨_, _, rfl, hlow, hfields⟩ := Shape.fieldsConform_cons.mp hfields
    obtain ⟨_, _, rfl, hhigh, hfields⟩ := Shape.fieldsConform_cons.mp hfields
    cases Shape.fieldsConform_nil.mp hfields
    obtain ⟨low, rfl⟩ := Shape.conforms_uint.mp hlow
    obtain ⟨high, rfl⟩ := Shape.conforms_uint.mp hhigh
    exact ⟨.version low high, rfl⟩
  · cases Shape.conforms_void.mp hx
    exact ⟨.chunk, rfl⟩

/-- The kinds of headers that may be sent. -/
theorem usable_messageType {code : Int32} (h : messageType.Usable code) :
    code = 0 ∨ code = 1 ∨ code = 4 := by
  obtain ⟨e, hentry, hstability⟩ := h
  have hmem := List.mem_of_find?_eq_some hentry
  have hcode : e.code = code := by simpa using List.find?_some hentry
  simp only [messageType, List.mem_cons, List.not_mem_nil, or_false] at hmem
  rcases hmem with rfl | rfl | rfl | rfl | rfl
  · exact .inl hcode.symm
  · exact .inr (.inl hcode.symm)
  · exact absurd rfl hstability
  · exact absurd rfl hstability
  · exact .inr (.inr hcode.symm)

/-- **What has the shape of a body lists the chunks of a message or reports an error.** -/
theorem exists_body (h : body.Conforms v) :
    (∃ inline l, l.Countable ∧ v = bodyValue inline l) ∨ ∃ e, v = errorValue e := by
  obtain ⟨d, k, arm, s, x, rfl, hd, hcode, harm, hx⟩ := Shape.conforms_union.mp h
  obtain ⟨code, rfl, husable⟩ := Shape.conforms_enum.mp hd
  rcases usable_messageType (husable rfl) with rfl | rfl | rfl
  · cases hcode
    cases harm
    obtain ⟨l, hl, rfl⟩ := exists_listedChunks hx
    exact .inl ⟨true, l, hl, rfl⟩
  · cases hcode
    cases harm
    obtain ⟨l, hl, rfl⟩ := exists_listedChunks hx
    exact .inl ⟨false, l, hl, rfl⟩
  · cases hcode
    cases harm
    obtain ⟨e, rfl⟩ := exists_peerError hx
    exact .inr ⟨e, rfl⟩

end Conforms

theorem bodyOf_errorValue (e : PeerError) : bodyOf (errorValue e) = .ok (4, .error e) := by
  cases e with
  | version low high => rfl
  | chunk => rfl

/-! ## The words in front -/

/-- The octets in front of a body. -/
def frontOctets (xid credit : UInt32) : Bytes :=
  Bytes.word xid ++ Bytes.word version ++ Bytes.word credit

theorem length_frontOctets (xid credit : UInt32) :
    (frontOctets xid credit).length = bodyOffset := by
  simp [frontOctets, bodyOffset]

section ReadFields

variable {input : Bytes} {strict : Bool} {xid vers credit : UInt32} {content : Value} {c : Cursor}

/-- A header that is read starts with its three words, and its body stands behind them. -/
theorem readFields_ok
    (h : readFields { strict } (Cursor.at input 0) = .ok (xid, vers, credit, content) c) :
    vers = version ∧ body.Conforms content ∧ ∃ rest,
      input = frontOctets xid credit ++ whole (body.layout content) ++ rest ∧
      c.offset = (frontOctets xid credit ++ whole (body.layout content)).length := by
  obtain ⟨x, c₁, hxid, h⟩ := Reader.bind_ok_iff.mp h
  rw [Reader.offset_bind_apply] at h
  obtain ⟨v, c₂, hvers, h⟩ := Reader.bind_ok_iff.mp h
  dsimp only at h
  split at h
  next =>
    obtain ⟨a, m, hfail, -⟩ := Reader.bind_ok_iff.mp h
    exact absurd hfail Reader.failAt_ne_ok
  next hversion =>
    obtain ⟨w, c₃, hcredit, h⟩ := Reader.bind_ok_iff.mp h
    obtain ⟨x', m, hbody, h⟩ := Reader.bind_ok_iff.mp h
    obtain ⟨hfields, rfl⟩ := Reader.pure_ok_iff.mp h
    cases hfields
    obtain ⟨hconforms, hcontent⟩ := Shape.reads_of_decode rfl rfl hbody
    rw [Reader.uint_ok_iff] at hxid hvers hcredit
    obtain rfl : vers = version := Decidable.not_not.mp hversion
    have hfront : (Cursor.at input 0).Reads (frontOctets xid credit) c₃ :=
      Cursor.reads_append.mpr ⟨c₂, Cursor.reads_append.mpr ⟨c₁, hxid, hvers⟩, hcredit⟩
    have hall := Cursor.reads_append.mpr ⟨c₃, hfront, hcontent⟩
    exact ⟨rfl, hconforms, c.rest, hall.rest, hall.offset.trans (Nat.zero_add _)⟩

theorem suits_readFields : readFields.Suits fun _ => True := by
  refine Reader.suits_uint.andThen fun xid => Reader.suits_offset.andThen fun start =>
    Reader.suits_uint.andThen fun vers => ?_
  have hrest : (do
      let credit ← Reader.uint
      let content ← Reader.within (.name "rdma_body") body.decode
      return (xid, vers, credit, content) : Reader _).Suits fun _ => True :=
    Reader.suits_uint.andThen fun credit =>
      ((Shape.suits_decode (by decide)).within _).andThen fun content => .pure trivial
  dsimp only
  split
  · exact ((Reader.suits_failAt start (by rintro _ ⟨⟩)).within _).andThen fun _ => hrest
  · exact hrest

/-- The code of a kind of header that is not to be sent is refused. -/
theorem judge_messageType {w : UInt32} (h : w = 2 ∨ w = 3 ∨ 4 < w) :
    ∃ what, Reader.judge messageType true strict w.toInt32 = .error (.violation what) := by
  rcases h with rfl | rfl | hlarge
  · exact ⟨_, rfl⟩
  · exact ⟨_, rfl⟩
  · have hlisted : ∀ e ∈ messageType.entries, e.code.toUInt32 ≤ 4 := by decide
    have hnone : messageType.entry? w.toInt32 = none := by
      refine List.find?_eq_none.mpr fun e he hcode => ?_
      have hw : e.code.toUInt32 = w := by simpa using congrArg Int32.toUInt32 (eq_of_beq hcode)
      exact absurd hlarge (UInt32.not_lt.mpr (hw ▸ hlisted e he))
    refine ⟨.unlistedCode messageType.name w.toInt32, ?_⟩
    rw [Reader.judge, hnone]
    rfl

/-- **A header of a kind that is not to be sent is refused** at the word of its kind. -/
theorem decodeHeader_of_unsendable (strict : Bool) (xid credit : UInt32) {w : UInt32}
    (h : w = 2 ∨ w = 3 ∨ 4 < w) (rest : Bytes) :
    ∃ what, decodeHeader (frontOctets xid credit ++ Bytes.word w ++ rest) strict =
      .error (violation [.name "rdma_body"] bodyOffset what) := by
  obtain ⟨what, hjudge⟩ := judge_messageType h
  obtain ⟨c, hreads, -⟩ := Cursor.reads_middle [] (frontOctets xid credit ++ Bytes.word w) rest
  obtain ⟨c₃, hfront, hkind⟩ := Cursor.reads_append.mp hreads
  obtain ⟨c₂, hwords, hcredit⟩ := Cursor.reads_append.mp hfront
  obtain ⟨c₁, hxid, hvers⟩ := Cursor.reads_append.mp hwords
  have hoffset : c₃.offset = bodyOffset := by
    rw [hfront.offset, length_frontOctets]
    exact Nat.zero_add _
  have hbody : Reader.within (.name "rdma_body") body.decode { strict } c₃ = .error
      { fault := .violation what, path := [.name "rdma_body"], offset := bodyOffset } c := by
    show body.decode { strict, path := [.name "rdma_body"] } c₃ = _
    rw [body, Shape.decode, Reader.offset_bind_apply, ← hoffset]
    exact Reader.bind_of_error (Reader.enum_of_error (by simpa using hkind) hjudge)
  have hfields : readFields { strict }
      (Cursor.at (frontOctets xid credit ++ Bytes.word w ++ rest) 0) = .error
        { fault := .violation what, path := [.name "rdma_body"], offset := bodyOffset } c := by
    refine (Reader.bind_of_ok (Reader.uint_ok_iff.mpr hxid)).trans ?_
    rw [Reader.offset_bind_apply]
    refine (Reader.bind_of_ok (Reader.uint_ok_iff.mpr hvers)).trans ?_
    refine (Reader.bind_of_ok (Reader.uint_ok_iff.mpr hcredit)).trans ?_
    exact Reader.bind_of_error hbody
  refine ⟨what, ?_⟩
  simp only [decodeHeader, hfields]
  rfl

end ReadFields

/-! ## What is read as a header -/

def PeerError.octets : PeerError → Bytes
  | .version low high => Bytes.word 1 ++ Bytes.word low ++ Bytes.word high
  | .chunk => Bytes.word 2

/-- A header that reports an error. -/
def errorOctets (xid credit : UInt32) (e : PeerError) : Bytes :=
  frontOctets xid credit ++ (Bytes.word 4 ++ e.octets)

/-- The fields of a header with this body. -/
def recordOf (xid credit : UInt32) (content : Value) : Value :=
  .struct [("rdma_xid", .uint xid), ("rdma_vers", .uint version), ("rdma_credit", .uint credit),
    ("rdma_body", content)]

/-- The header of a message with these chunks. -/
def messageHeader (xid credit : UInt32) (inline : Bool) (l : ListedChunks) : Header :=
  { xid, version, credit
    kind := (kindOf inline).toUInt32
    body := announced inline l.chunks
    record := recordOf xid credit (bodyValue inline l)
    length := (headerOctets xid credit inline l).length }

def errorHeader (xid credit : UInt32) (e : PeerError) : Header :=
  { xid, version, credit
    kind := 4
    body := .error e
    record := recordOf xid credit (errorValue e)
    length := (errorOctets xid credit e).length }

theorem errorValue_conforms (e : PeerError) : body.Conforms (errorValue e) := by
  have husable : messageType.Usable 4 := ⟨⟨4, "RDMA_ERROR", .fixed⟩, by decide, by decide⟩
  have hcontent : errorBody.Conforms e.value := by
    unfold errorBody
    cases e with
    | version low high =>
      refine .union (Shape.conforms_code.mpr ⟨1, rfl⟩) rfl rfl (.struct rfl ?_)
      simp only [List.zip_cons_cons, List.zip_nil_right, List.forall_mem_cons]
      exact ⟨.uint _, .uint _, nofun⟩
    | chunk => exact .union (Shape.conforms_code.mpr ⟨2, rfl⟩) rfl rfl .void
  unfold body
  exact .union (.enum fun _ => husable) rfl rfl hcontent

theorem whole_layout_errorValue (e : PeerError) :
    whole (body.layout (errorValue e)) = Bytes.word 4 ++ e.octets := by
  have hcode : whole ((Shape.enum messageType true).layout (codeValue messageType 4)) =
      Bytes.word 4 := rfl
  have hcontent : whole (errorBody.layout e.value) = e.octets := by
    cases e with
    | version low high =>
      rw [errorBody, PeerError.value, Shape.whole_layout_union rfl]
      simp [PeerError.octets, Shape.layout, Shape.layoutFields, NfsWire.Piece.octets]
    | chunk =>
      rw [errorBody, PeerError.value, Shape.whole_layout_union rfl]
      simp [PeerError.octets, Shape.layout]
  rw [body, errorValue, Shape.layout_union rfl rfl, whole_append, hcode, hcontent]

section DecodeHeader

variable {input : Bytes} {strict : Bool} {header : Header}

/-- **A header that is read is the one that is written in front of the payload.** -/
theorem decodeHeader_ok (h : decodeHeader input strict = .ok header) :
    (∃ xid credit inline l rest, ListedChunks.Countable l ∧
      input = headerOctets xid credit inline l ++ rest ∧
      header = messageHeader xid credit inline l) ∨
    ∃ xid credit e rest, input = errorOctets xid credit e ++ rest ∧
      header = errorHeader xid credit e := by
  cases hfields : readFields { strict } (Cursor.at input 0) with
  | error e c =>
    simp only [decodeHeader, hfields] at h
    cases h
  | ok fields c =>
    obtain ⟨xid, vers, credit, content⟩ := fields
    obtain ⟨rfl, hconforms, rest, hinput, hoffset⟩ := readFields_ok hfields
    rcases exists_body hconforms with ⟨inline, l, hl, rfl⟩ | ⟨e, rfl⟩
    · simp only [decodeHeader, hfields, bodyOf_bodyValue] at h
      cases h
      rw [whole_layout_body] at hinput hoffset
      refine .inl ⟨xid, credit, inline, l, rest, hl, hinput, ?_⟩
      rw [messageHeader, recordOf, hoffset]
      rfl
    · simp only [decodeHeader, hfields, bodyOf_errorValue] at h
      cases h
      rw [whole_layout_errorValue] at hinput hoffset
      refine .inr ⟨xid, credit, e, rest, hinput, ?_⟩
      rw [errorHeader, recordOf, hoffset]
      rfl

/-- **A payload is refused for what it holds**, and never because its tree is not that of a
header. -/
theorem decodeHeader_fault {e : DecodeError} (h : decodeHeader input strict = .error e)
    (what : Mismatch) : e.fault ≠ .mismatch what := by
  cases hfields : readFields { strict } (Cursor.at input 0) with
  | error e' c =>
    simp only [decodeHeader, hfields] at h
    cases h
    rw [DecodeError.fault_inProtocol]
    exact suits_readFields.fault_ne_mismatch hfields what
  | ok fields c =>
    obtain ⟨xid, vers, credit, content⟩ := fields
    obtain ⟨-, hconforms, -⟩ := readFields_ok hfields
    rcases exists_body hconforms with ⟨inline, l, -, rfl⟩ | ⟨e', rfl⟩
    · simp only [decodeHeader, hfields, bodyOf_bodyValue] at h
      cases h
    · simp only [decodeHeader, hfields, bodyOf_errorValue] at h
      cases h

end DecodeHeader

/-! ## What a header says -/

/-- These chunks are the lists that the payload has behind the kind of the header: all entries in
their order, and neighbours together if and only if they share a position. -/
structure Header.Lists (h : Header) (input : Bytes) (chunks : ChunkLists) : Prop where
  wire : ∀ l : ListedChunks,
    (l.Countable ∧ input.between (bodyOffset + 4) h.length = l.octets) ↔ l = chunks.listed
  apart : chunks.reads.IsChain (·.position ≠ ·.position)
  full : ∀ c ∈ chunks.reads, c.segments ≠ []
  marks : ∀ before c after, chunks.reads = before ++ c :: after →
    c.offset = entryOffset (before.flatMap ReadChunk.entries).length ∧
      input.between c.offset (c.offset + 4) = Bytes.word c.position

/-- What was read of a payload as its header is what the payload has there. -/
structure Header.Faithful (h : Header) (input : Bytes) : Prop where
  within : h.length ≤ input.length
  version : h.version = Rdma.version
  front : input.take (bodyOffset + 4) = frontOctets h.xid h.credit ++ Bytes.word h.kind
  encode : ∃ content, h.record.get? "rdma_body" = some content ∧
    encode content Rdma.body = .ok (input.between bodyOffset h.length)
  body : match h.body with
    | .inline chunks => h.kind = 0 ∧ h.Lists input chunks
    | .away chunks => h.kind = 1 ∧ h.Lists input chunks
    | .error e => h.kind = 4 ∧ input.between (bodyOffset + 4) h.length = e.octets

theorem ReadEntry.length_octets (e : ReadEntry) : e.octets.length = 20 := by
  simp [ReadEntry.octets, Segment.octets]

theorem length_flagged_entries (entries : List ReadEntry) :
    (entries.flatMap fun e => Bytes.word 1 ++ e.octets).length = entries.length * 24 := by
  induction entries with
  | nil => rfl
  | cons e rest ih =>
    rw [List.flatMap_cons, List.length_append, List.length_append, ih, Bytes.length_word,
      ReadEntry.length_octets, List.length_cons]
    omega

/-! ### Where its parts stand -/

section Parts

variable (xid credit kind : UInt32) (content rest : Bytes)

/-- The octets of a header of this kind. -/
def kindOctets : Bytes := frontOctets xid credit ++ (Bytes.word kind ++ content)

theorem length_kindOctets :
    (kindOctets xid credit kind content).length = bodyOffset + (4 + content.length) := by
  rw [kindOctets, List.length_append, length_frontOctets, List.length_append, Bytes.length_word]

theorem take_kindOctets :
    (kindOctets xid credit kind content ++ rest).take (bodyOffset + 4) =
      frontOctets xid credit ++ Bytes.word kind := by
  have hlength : (frontOctets xid credit ++ Bytes.word kind).length = bodyOffset + 4 := by
    rw [List.length_append, length_frontOctets, Bytes.length_word]
  rw [kindOctets, ← hlength, ← List.append_assoc, List.append_assoc, List.take_left]

theorem between_kindOctets_body :
    (kindOctets xid credit kind content ++ rest).between bodyOffset
      (kindOctets xid credit kind content).length = Bytes.word kind ++ content := by
  have hbody := Bytes.between_append (frontOctets xid credit) (Bytes.word kind ++ content) rest
  rw [length_frontOctets, List.length_append, Bytes.length_word] at hbody
  rw [length_kindOctets, kindOctets, List.append_assoc, hbody]

theorem between_kindOctets :
    (kindOctets xid credit kind content ++ rest).between (bodyOffset + 4)
      (kindOctets xid credit kind content).length = content := by
  have hcontent := Bytes.between_append (frontOctets xid credit ++ Bytes.word kind) content rest
  rw [List.length_append, length_frontOctets, Bytes.length_word] at hcontent
  rw [length_kindOctets, kindOctets, ← Nat.add_assoc, ← List.append_assoc, List.append_assoc,
    hcontent]

end Parts

section Lists

variable (xid credit : UInt32) (inline : Bool)

theorem ListedChunks.octets_inj {l l' : ListedChunks} (hl : l.Countable) (hl' : l'.Countable)
    (h : l.octets = l'.octets) : l = l' := by
  obtain ⟨header, hheader, -, hbody, -⟩ := decodeHeader_octets hl 0 0 true true []
  obtain ⟨header', hheader', -, hbody', -⟩ := decodeHeader_octets hl' 0 0 true true []
  rw [headerOctets, h] at hheader
  cases hheader.symm.trans hheader'
  exact ListedChunks.chunks_inj (Body.inline.inj (hbody.symm.trans hbody'))

/-- The position of an entry stands where `entryOffset` says. -/
theorem between_entryOffset {l : ListedChunks} {before after : List ReadEntry} {e : ReadEntry}
    (h : l.entries = before ++ e :: after) (rest : Bytes) :
    (headerOctets xid credit inline l ++ rest).between (entryOffset before.length)
      (entryOffset before.length + 4) = Bytes.word e.position := by
  -- What stands in front of the position, up to the flag of the entry.
  generalize hpre : frontOctets xid credit ++ (Bytes.word (kindOf inline).toUInt32 ++
    (before.flatMap (fun e => Bytes.word 1 ++ e.octets) ++ Bytes.word 1)) = pre
  have hoffset : entryOffset before.length = pre.length := by
    simp only [← hpre, List.length_append, length_frontOctets, Bytes.length_word,
      length_flagged_entries, entryOffset]
    omega
  obtain ⟨post, hinput⟩ : ∃ post,
      headerOctets xid credit inline l ++ rest = pre ++ (Bytes.word e.position ++ post) := by
    simp only [← hpre, headerOctets, frontOctets, ListedChunks.octets, flagged, h,
      List.flatMap_append, List.flatMap_cons, ReadEntry.octets, List.append_assoc]
    exact ⟨_, rfl⟩
  have hposition := Bytes.between_append pre (Bytes.word e.position) post
  rwa [Bytes.length_word, ← hoffset, ← hinput] at hposition

theorem lists_messageHeader {l : ListedChunks} (hl : l.Countable) (rest : Bytes) :
    (messageHeader xid credit inline l).Lists (headerOctets xid credit inline l ++ rest)
      l.chunks := by
  refine ⟨fun l' => ?_, l.grouped.apart, l.grouped.full, fun before c after hreads => ?_⟩
  · show _ ∧ (_ : Bytes).between _ (headerOctets xid credit inline l).length = _ ↔ _
    have hbetween : (headerOctets xid credit inline l ++ rest).between (bodyOffset + 4)
        (headerOctets xid credit inline l).length = l.octets := between_kindOctets ..
    rw [hbetween, l.listed_chunks]
    constructor
    · rintro ⟨hl', hoctets⟩
      exact (ListedChunks.octets_inj hl hl' hoctets).symm
    · rintro rfl
      exact ⟨hl, rfl⟩
  · have hmark := l.grouped.marks before c after hreads
    rw [Nat.zero_add] at hmark
    refine ⟨hmark, ?_⟩
    have hc : c ∈ l.chunks.reads := hreads ▸ List.mem_append_right _ List.mem_cons_self
    obtain ⟨s, segments, hsegments⟩ := List.exists_cons_of_ne_nil (l.grouped.full c hc)
    have hentries : l.entries = before.flatMap ReadChunk.entries ++
        ⟨c.position, s⟩ :: (segments.map (fun s => ⟨c.position, s⟩) ++
          after.flatMap ReadChunk.entries) := by
      rw [← l.grouped.flat, hreads, List.flatMap_append, List.flatMap_cons, ReadChunk.entries,
        hsegments]
      rfl
    rw [hmark]
    exact between_entryOffset xid credit inline hentries rest

end Lists

section Faithful

variable (xid credit : UInt32)

theorem faithful_messageHeader (inline : Bool) {l : ListedChunks} (hl : l.Countable)
    (rest : Bytes) :
    (messageHeader xid credit inline l).Faithful (headerOctets xid credit inline l ++ rest) := by
  have hlists := lists_messageHeader xid credit inline hl rest
  refine ⟨?_, rfl, take_kindOctets .., ⟨bodyValue inline l, rfl, ?_⟩, ?_⟩
  · rw [List.length_append]
    exact Nat.le_add_right ..
  · rw [encode_whole (bodyValue_conforms inline hl) (by decide), whole_layout_body]
    exact congrArg _ (between_kindOctets_body ..).symm
  · cases inline with
    | true => exact ⟨rfl, hlists⟩
    | false => exact ⟨rfl, hlists⟩

theorem faithful_errorHeader (e : PeerError) (rest : Bytes) :
    (errorHeader xid credit e).Faithful (errorOctets xid credit e ++ rest) := by
  refine ⟨?_, rfl, take_kindOctets .., ⟨errorValue e, rfl, ?_⟩, rfl, between_kindOctets ..⟩
  · rw [List.length_append]
    exact Nat.le_add_right ..
  · rw [encode_whole (errorValue_conforms e) (by decide), whole_layout_errorValue]
    exact congrArg _ (between_kindOctets_body ..).symm

end Faithful

/-! ## Every payload -/

/-- Enough octets start with a word. -/
theorem exists_word_append {data : Bytes} (h : 4 ≤ data.length) :
    ∃ w rest, data = Bytes.word w ++ rest ∧ data.length = 4 + rest.length := by
  have hlength : (data.take 4).length = 4 := List.length_take_of_le h
  have hlt := Bytes.toNat_lt (data.take 4)
  rw [hlength] at hlt
  have hword : Bytes.word (UInt32.ofNat (Bytes.toNat (data.take 4))) = data.take 4 := by
    have hsame := Bytes.ofNat_toNat (data.take 4)
    rw [hlength] at hsame
    rw [Bytes.word, UInt32.toNat_ofNat_of_lt' hlt, hsame]
  refine ⟨UInt32.ofNat (Bytes.toNat (data.take 4)), data.drop 4, ?_, ?_⟩
  · rw [hword, List.take_append_drop]
  · rw [List.length_drop]
    omega

/-- **The header of a transfer is read exactly.** A header that is read is what stands in front of
the payload: writing its body gives the octets back, its chunks are the lists on the wire with
neighbours of one position put together, and each read chunk knows where its position stands. What
a peer sends for some chunks is read. No payload is refused for the shape of its tree, and all kinds
of headers that are not to be sent are refused at the word of their kind. -/
theorem decodeHeader_faithful (input : Bytes) (strict : Bool) :
    (∀ h, decodeHeader input strict = .ok h → h.Faithful input) ∧
      (∀ xid credit inline l, ListedChunks.Countable l →
        headerOctets xid credit inline l <+: input → ∃ h, decodeHeader input strict = .ok h) ∧
      (∀ e, decodeHeader input strict = .error e → ∀ what, e.fault ≠ .mismatch what) ∧
      (bodyOffset + 4 ≤ input.length → Bytes.toNat (input.between 4 8) = version.toNat →
        (Bytes.toNat (input.between 12 16) = 2 ∨ Bytes.toNat (input.between 12 16) = 3 ∨
          4 < Bytes.toNat (input.between 12 16)) →
        ∃ what, decodeHeader input strict =
          .error (violation [.name "rdma_body"] bodyOffset what)) := by
  refine ⟨fun h hheader => ?_, fun xid credit inline l hl hsent => ?_, fun e => decodeHeader_fault,
    fun hlength hversion hkind => ?_⟩
  · rcases decodeHeader_ok hheader with
      ⟨xid, credit, inline, l, rest, hl, rfl, rfl⟩ | ⟨xid, credit, e, rest, rfl, rfl⟩
    · exact faithful_messageHeader xid credit inline hl rest
    · exact faithful_errorHeader xid credit e rest
  · obtain ⟨rest, rfl⟩ := hsent
    obtain ⟨header, hheader, -⟩ := decodeHeader_octets hl xid credit inline strict rest
    exact ⟨header, hheader⟩
  · rw [bodyOffset] at hlength
    obtain ⟨xid, rest, rfl, hrest⟩ := exists_word_append (Nat.le_trans (by decide) hlength)
    obtain ⟨vers, rest, rfl, hrest⟩ := exists_word_append (show 4 ≤ rest.length by omega)
    obtain ⟨credit, rest, rfl, hrest⟩ := exists_word_append (show 4 ≤ rest.length by omega)
    obtain ⟨kind, rest, rfl, -⟩ := exists_word_append (show 4 ≤ rest.length by omega)
    have hvers := Bytes.between_append (Bytes.word xid) (Bytes.word vers)
      (Bytes.word credit ++ (Bytes.word kind ++ rest))
    have hword := Bytes.between_append (Bytes.word xid ++ (Bytes.word vers ++ Bytes.word credit))
      (Bytes.word kind) rest
    simp only [List.length_append, Bytes.length_word, List.append_assoc] at hvers hword
    rw [hvers, Bytes.toNat_word] at hversion
    rw [hword, Bytes.toNat_word] at hkind
    obtain rfl := UInt32.toNat_inj.mp hversion
    have hunsendable : kind = 2 ∨ kind = 3 ∨ 4 < kind := by
      rw [← UInt32.toNat_inj, ← UInt32.toNat_inj, UInt32.lt_iff_toNat_lt]
      exact hkind
    have hrefused := decodeHeader_of_unsendable strict xid credit hunsendable rest
    simpa only [frontOctets, List.append_assoc] using hrefused

theorem decodeHeader_faithful_long_call :
    (∃ h, decodeHeader (headerOctets 7 32 false (.ofCall [⟨1, 8, 4096⟩, ⟨2, 8, 8192⟩])) true =
        .ok h ∧
      h.Faithful (headerOctets 7 32 false (.ofCall [⟨1, 8, 4096⟩, ⟨2, 8, 8192⟩]))) ∧
    ∃ what, decodeHeader (frontOctets 7 32 ++ Bytes.word 3) true =
      .error (violation [.name "rdma_body"] bodyOffset what) := by
  have hcountable : (ListedChunks.ofCall [⟨1, 8, 4096⟩, ⟨2, 8, 8192⟩]).Countable := by
    simp [ListedChunks.Countable, ListedChunks.ofCall]
  obtain ⟨hfaithful, haccepts, -⟩ := decodeHeader_faithful
    (headerOctets 7 32 false (.ofCall [⟨1, 8, 4096⟩, ⟨2, 8, 8192⟩])) true
  obtain ⟨h, hheader⟩ := haccepts 7 32 false _ hcountable (List.prefix_refl _)
  obtain ⟨-, -, -, hrefused⟩ := decodeHeader_faithful (frontOctets 7 32 ++ Bytes.word 3) true
  exact ⟨⟨h, hheader, hfaithful h hheader⟩, hrefused (by decide) (by decide) (by decide)⟩

end NfsWire.Rdma
