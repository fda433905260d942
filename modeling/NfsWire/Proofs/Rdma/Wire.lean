import NfsWire.Proofs.Lists
import NfsWire.Proofs.Xdr.RoundTrip
import NfsWire.Rdma.Reassembly

/-!
# Transport headers on the wire

`ListedChunks` are the three lists of a header as it has them, with the entries of the read list
one by one. `headerOctets` is what a peer sends for them, and `decodeHeader_octets` says that it is
read as such in front of anything, in both modes: the codes of a header are all listed. Three such
headers carry a whole message and nothing beside it, and for each the message that is put together
is the one that was sent: `reassemble_inline`, `reassemble_ofCall`, `reassemble_ofReply`.
-/

namespace NfsWire.Rdma

/-! ## What is sent -/

/-- The chunks of a header, entry by entry. -/
structure ListedChunks where
  entries : List ReadEntry := []
  writes : List WriteChunk := []
  reply : Option WriteChunk := none

/-- The chunks, with the entries of a read chunk put together. -/
def ListedChunks.chunks (l : ListedChunks) : ChunkLists :=
  { reads := groupReads 0 l.entries, writes := l.writes, reply := l.reply }

/-- A word can say how many segments each chunk has. -/
def ListedChunks.Countable (l : ListedChunks) : Prop :=
  ∀ c ∈ l.writes ++ l.reply.toList, c.segments.length < UInt32.size

def Segment.octets (s : Segment) : Bytes :=
  Bytes.word s.handle ++ Bytes.word s.length ++ Bytes.ofNat 8 s.offset.toNat

def ReadEntry.octets (e : ReadEntry) : Bytes := Bytes.word e.position ++ e.segment.octets

def WriteChunk.octets (c : WriteChunk) : Bytes :=
  Bytes.word (UInt32.ofNat c.segments.length) ++ c.segments.flatMap Segment.octets

/-- Elements with a flag in front of each, and the flag that ends them. -/
def flagged {α : Type} (octets : α → Bytes) (xs : List α) : Bytes :=
  xs.flatMap (fun x => Bytes.word 1 ++ octets x) ++ Bytes.word 0

def replyOctets : Option WriteChunk → Bytes
  | none => Bytes.word 0
  | some c => Bytes.word 1 ++ c.octets

def ListedChunks.octets (l : ListedChunks) : Bytes :=
  flagged ReadEntry.octets l.entries ++ flagged WriteChunk.octets l.writes ++ replyOctets l.reply

/-- The code of a header with or without a message behind it. -/
def kindOf (inline : Bool) : Int32 := if inline then 0 else 1

/-- A header with or without a message behind it. -/
def headerOctets (xid credit : UInt32) (inline : Bool) (l : ListedChunks) : Bytes :=
  Bytes.word xid ++ Bytes.word version ++ Bytes.word credit ++
    (Bytes.word (kindOf inline).toUInt32 ++ l.octets)

/-- What such a header announces. -/
def announced (inline : Bool) (chunks : ChunkLists) : Body :=
  if inline then .inline chunks else .away chunks

/-! ## The tree of a header -/

def Segment.value (s : Segment) : Value :=
  .struct [("handle", .uint s.handle), ("length", .uint s.length), ("offset", .uhyper s.offset)]

def ReadEntry.value (e : ReadEntry) : Value :=
  .struct [("position", .uint e.position), ("target", e.segment.value)]

def WriteChunk.value (c : WriteChunk) : Value :=
  .struct [("target", .array (c.segments.map Segment.value))]

def ListedChunks.value (l : ListedChunks) : Value :=
  .struct [("rdma_reads", .array (l.entries.map ReadEntry.value)),
    ("rdma_writes", .array (l.writes.map WriteChunk.value)),
    ("rdma_reply", .optional (l.reply.map WriteChunk.value))]

def bodyValue (inline : Bool) (l : ListedChunks) : Value :=
  .union (.enum (kindOf inline) (messageType.name? (kindOf inline)))
    (if inline then "rdma_msg" else "rdma_nomsg") l.value

/-! ### Its shape -/

theorem Segment.conforms (s : Segment) : Rdma.segment.Conforms s.value := by
  refine .struct rfl ?_
  simp only [List.zip_cons_cons, List.zip_nil_right, List.forall_mem_cons]
  exact ⟨.uint _, .uint _, .uhyper _, nofun⟩

theorem ReadEntry.conforms (e : ReadEntry) :
    (Shape.struct [("position", .uint), ("target", Rdma.segment)]).Conforms e.value := by
  refine .struct rfl ?_
  simp only [List.zip_cons_cons, List.zip_nil_right, List.forall_mem_cons]
  exact ⟨.uint _, e.segment.conforms, nofun⟩

theorem WriteChunk.conforms {c : WriteChunk} (h : c.segments.length < UInt32.size) :
    targetChunk.Conforms c.value := by
  have hcount : (Extent.variable none).Admits (c.segments.map Segment.value).length := by
    rw [List.length_map]
    exact Extent.admits_variable.mpr ⟨h, nofun⟩
  refine .struct rfl ?_
  simp only [List.zip_cons_cons, List.zip_nil_right, List.forall_mem_cons]
  exact ⟨.array hcount (List.forall_mem_map.mpr fun s _ => s.conforms), nofun⟩

theorem ListedChunks.conforms {l : ListedChunks} (h : l.Countable) :
    (Shape.struct chunkLists).Conforms l.value := by
  obtain ⟨hwrites, hreply⟩ := List.forall_mem_append.mp h
  have hreply' :
      (Shape.optional targetChunk).Conforms (.optional (l.reply.map WriteChunk.value)) := by
    cases hr : l.reply with
    | none => exact .absent
    | some c => exact .present (WriteChunk.conforms (hreply c (by simp [hr])))
  refine .struct rfl ?_
  simp only [chunkLists, List.zip_cons_cons, List.zip_nil_right, List.forall_mem_cons]
  refine ⟨.chain ?_, .chain ?_, hreply', nofun⟩
  · exact List.forall_mem_map.mpr fun e _ => e.conforms
  · exact List.forall_mem_map.mpr fun c hc => WriteChunk.conforms (hwrites c hc)

theorem bodyValue_conforms (inline : Bool) {l : ListedChunks} (h : l.Countable) :
    body.Conforms (bodyValue inline l) := by
  have husable : messageType.Usable (kindOf inline) := by
    cases inline with
    | true => exact ⟨⟨0, "RDMA_MSG", .fixed⟩, by decide, by decide⟩
    | false => exact ⟨⟨1, "RDMA_NOMSG", .fixed⟩, by decide, by decide⟩
  unfold body
  refine .union (.enum fun _ => husable) rfl ?_ (ListedChunks.conforms h)
  cases inline <;> rfl

/-! ### Its octets -/

theorem Segment.whole_layout (s : Segment) : whole (Rdma.segment.layout s.value) = s.octets := by
  simp [Rdma.segment, Segment.value, Segment.octets, Shape.layout, Shape.layoutFields,
    NfsWire.Piece.octets]

theorem ReadEntry.whole_layout (e : ReadEntry) :
    whole ((Shape.struct [("position", .uint), ("target", Rdma.segment)]).layout e.value) =
      e.octets := by
  simp [ReadEntry.value, ReadEntry.octets, Shape.layout, Shape.layoutFields,
    NfsWire.Piece.octets, Segment.whole_layout]

theorem WriteChunk.whole_layout (c : WriteChunk) :
    whole (targetChunk.layout c.value) = c.octets := by
  simp [targetChunk, Shape.arrayOf, WriteChunk.value, WriteChunk.octets, Shape.layout,
    Shape.layoutFields, Shape.countPieces, NfsWire.Piece.octets, List.flatMap_map,
    whole_flatMap, Segment.whole_layout]

/-- The elements of a list are flagged. -/
theorem whole_layout_chain {α : Type} {elem : Shape} {value : α → Value} {octets : α → Bytes}
    (h : ∀ x, whole (elem.layout (value x)) = octets x) (xs : List α) :
    whole ((Shape.chain elem).layout (.array (xs.map value))) = flagged octets xs := by
  simp [Shape.layout, flagged, NfsWire.Piece.octets, List.flatMap_map, whole_flatMap, h]

theorem ListedChunks.whole_layout (l : ListedChunks) :
    whole ((Shape.struct chunkLists).layout l.value) = l.octets := by
  have hreply : whole ((Shape.optional targetChunk).layout
      (.optional (l.reply.map WriteChunk.value))) = replyOctets l.reply := by
    cases l.reply with
    | none => simp [Shape.layout, replyOctets, NfsWire.Piece.octets]
    | some c => simp [Shape.layout, replyOctets, NfsWire.Piece.octets, WriteChunk.whole_layout]
  rw [ListedChunks.value, chunkLists, Shape.layout]
  simp only [Shape.layoutFields, whole_append, List.append_nil, hreply,
    whole_layout_chain ReadEntry.whole_layout, whole_layout_chain WriteChunk.whole_layout]
  simp [ListedChunks.octets]

theorem whole_layout_body (inline : Bool) (l : ListedChunks) :
    whole (body.layout (bodyValue inline l)) =
      Bytes.word (kindOf inline).toUInt32 ++ l.octets := by
  cases inline <;>
    simp [body, bodyValue, kindOf, Shape.layout, Value.armCode?, Shape.layoutArm,
      NfsWire.Piece.octets, ListedChunks.whole_layout]

/-! ### Its codes -/

theorem Segment.named (s : Segment) : s.value.named = true := rfl

theorem ReadEntry.named (e : ReadEntry) : e.value.named = true := rfl

theorem WriteChunk.named (c : WriteChunk) : c.value.named = true := by
  refine Value.named_struct.mpr (List.forall_mem_singleton.mpr ?_)
  exact Value.named_array.mpr (List.forall_mem_map.mpr fun s _ => s.named)

theorem ListedChunks.named (l : ListedChunks) : l.value.named = true := by
  have hreply : (Value.optional (l.reply.map WriteChunk.value)).named = true := by
    cases l.reply with
    | none => rfl
    | some c => exact c.named
  refine Value.named_struct.mpr ?_
  simp only [List.forall_mem_cons]
  refine ⟨Value.named_array.mpr ?_, Value.named_array.mpr ?_, hreply, nofun⟩
  · exact List.forall_mem_map.mpr fun e _ => e.named
  · exact List.forall_mem_map.mpr fun c _ => c.named

theorem bodyValue_named (inline : Bool) (l : ListedChunks) : (bodyValue inline l).named = true := by
  have hcode : (messageType.name? (kindOf inline)).isSome = true := by cases inline <;> rfl
  exact Value.named_union.mpr ⟨hcode, l.named⟩

/-! ### What is picked out of it -/

theorem segmentOf?_value (s : Segment) : segmentOf? s.value = some s := rfl

theorem readEntryOf?_value (e : ReadEntry) : readEntryOf? e.value = some e := rfl

theorem writeChunkOf?_value (c : WriteChunk) : writeChunkOf? c.value = some c := by
  have hsegments := mapM_map segmentOf?_value c.segments
  simp [writeChunkOf?, WriteChunk.value, Value.get?, Fields.find?, Value.items?, hsegments]

theorem bodyOf_bodyValue (inline : Bool) (l : ListedChunks) :
    bodyOf (bodyValue inline l) =
      .ok ((kindOf inline).toUInt32, announced inline l.chunks) := by
  have hchunks : chunkListsOf? l.value = some l.chunks := by
    have hentries := mapM_map readEntryOf?_value l.entries
    have hwrites := mapM_map writeChunkOf?_value l.writes
    have hreply : replyChunkOf? (.optional (l.reply.map WriteChunk.value)) = some l.reply := by
      cases l.reply with
      | none => rfl
      | some c => exact congrArg (Option.map some) (writeChunkOf?_value c)
    simp [chunkListsOf?, ListedChunks.value, Value.get?, Fields.find?, Value.items?, hentries,
      hwrites, hreply, ListedChunks.chunks]
  have hfound (arm : String) : chunksOf arm l.value = .ok l.chunks := by
    rw [chunksOf, hchunks]
  cases inline with
  | true =>
    show Except.bind (chunksOf "rdma_msg" l.value) _ = _
    rw [hfound]
    rfl
  | false =>
    show Except.bind (chunksOf "rdma_nomsg" l.value) _ = _
    rw [hfound]
    rfl

/-! ## Reading it -/

theorem readFields_octets {l : ListedChunks} (h : l.Countable) (xid credit : UInt32)
    (inline strict : Bool) (rest : Bytes) :
    ∃ c, readFields { strict } (Cursor.at (headerOctets xid credit inline l ++ rest) 0) =
        .ok (xid, version, credit, bodyValue inline l) c ∧
      c.offset = (headerOctets xid credit inline l).length := by
  obtain ⟨c, hreads, hoffset⟩ := Cursor.reads_middle [] (headerOctets xid credit inline l) rest
  refine ⟨c, ?_, hoffset.trans (Nat.zero_add _)⟩
  -- The header is read part by part, from the front.
  obtain ⟨c₃, hwords, hbody⟩ := Cursor.reads_append.mp hreads
  obtain ⟨c₂, hfront, hcredit⟩ := Cursor.reads_append.mp hwords
  obtain ⟨c₁, hxid, hvers⟩ := Cursor.reads_append.mp hfront
  rw [← whole_layout_body] at hbody
  have hcontent (path : FieldPath) :
      body.decode { strict, path } c₃ = .ok (bodyValue inline l) c :=
    (bodyValue_conforms inline h).decode_of_named rfl rfl (fun _ => bodyValue_named inline l) hbody
  refine Reader.bind_ok_iff.mpr ⟨xid, c₁, Reader.uint_ok_iff.mpr hxid, ?_⟩
  rw [Reader.offset_bind_apply]
  refine Reader.bind_ok_iff.mpr ⟨version, c₂, Reader.uint_ok_iff.mpr hvers, ?_⟩
  refine Reader.bind_ok_iff.mpr ⟨credit, c₃, Reader.uint_ok_iff.mpr hcredit, ?_⟩
  exact Reader.bind_ok_iff.mpr ⟨_, c, hcontent _, rfl⟩

/-- **What a peer sends is read as such, in both modes and whatever follows.** -/
theorem decodeHeader_octets {l : ListedChunks} (h : l.Countable) (xid credit : UInt32)
    (inline strict : Bool) (rest : Bytes) :
    ∃ header, decodeHeader (headerOctets xid credit inline l ++ rest) strict = .ok header ∧
      header.xid = xid ∧ header.body = announced inline l.chunks ∧
      header.length = (headerOctets xid credit inline l).length := by
  obtain ⟨c, hfields, hoffset⟩ := readFields_octets h xid credit inline strict rest
  simp only [decodeHeader, hfields, bodyOf_bodyValue]
  exact ⟨_, rfl, rfl, rfl, hoffset⟩

/-! ## Putting messages together -/

/-- The chunks of a header that sends a whole call away, as a read chunk at position zero. -/
def ListedChunks.ofCall (segments : List Segment) : ListedChunks :=
  { entries := segments.map fun s => ⟨0, s⟩ }

/-- The chunks of a header that sends a whole reply away. -/
def ListedChunks.ofReply (segments : List Segment) : ListedChunks :=
  { reply := some ⟨segments⟩ }

/-- Entries of one position are one chunk. -/
theorem groupReads_same (position : UInt32) {segments : List Segment} (h : segments ≠ [])
    (k : Nat) :
    groupReads k (segments.map fun s => ⟨position, s⟩) = [⟨position, entryOffset k, segments⟩] := by
  induction segments generalizing k with
  | nil => exact absurd rfl h
  | cons s rest ih =>
    cases rest with
    | nil => rfl
    | cons next more =>
      have hrest := ih (List.cons_ne_nil _ _) (k + 1)
      rw [List.map_cons, groupReads, hrest]
      exact if_pos rfl

theorem payloadOf_away {source : ChunkSource} {chunks : ChunkLists} {ref : ChunkRef}
    {message : Bytes} {map : ChunkMap} (hcheck : checkChunks false chunks = .ok ())
    (hchunk : messageChunk? source chunks = some (⟨ref, some message⟩, map)) (rest : Bytes) :
    payloadOf source rest (.away chunks) = .ok (.message message map) := by
  simp only [payloadOf, hcheck, hchunk]
  rfl

section Reassembly

variable (source : ChunkSource) (xid credit : UInt32) (strict : Bool)

theorem reassemble_octets {l : ListedChunks} (h : l.Countable) {inline : Bool} {rest : Bytes}
    {payload : Payload}
    (hpayload : payloadOf source rest (announced inline l.chunks) = .ok payload) :
    ∃ header, header.xid = xid ∧
      reassemble (headerOctets xid credit inline l ++ rest) source strict =
        .ok (header, payload) := by
  obtain ⟨header, hheader, hxid, hbody, hlength⟩ :=
    decodeHeader_octets h xid credit inline strict rest
  refine ⟨header, hxid, ?_⟩
  rw [reassemble, hheader]
  show (payloadOf source _ header.body).map (header, ·) = _
  rw [hlength, List.drop_left, hbody, hpayload]
  rfl

/-- **An inline message without chunks is what follows the header.** -/
theorem reassemble_inline (message : Bytes) :
    ∃ header, header.xid = xid ∧
      reassemble (headerOctets xid credit true {} ++ message) source strict =
        .ok (header, .message message {}) := by
  have hcountable : ({} : ListedChunks).Countable := by simp [ListedChunks.Countable]
  exact reassemble_octets source xid credit strict hcountable rfl

variable {source} {segments : List Segment} {message : Bytes}

/-- **A call that was sent away is what its read chunk holds**, whatever follows the header. -/
theorem reassemble_ofCall (hsegments : segments ≠ []) (h : resolve source segments = some message)
    (rest : Bytes) :
    ∃ header, header.xid = xid ∧
      reassemble (headerOctets xid credit false (.ofCall segments) ++ rest) source strict =
        .ok (header, .message message {}) := by
  have hcountable : (ListedChunks.ofCall segments).Countable := by
    simp [ListedChunks.Countable, ListedChunks.ofCall]
  have hchunks : (ListedChunks.ofCall segments).chunks =
      ⟨[⟨0, entryOffset 0, segments⟩], [], none⟩ := by
    rw [ListedChunks.chunks, ListedChunks.ofCall, groupReads_same 0 hsegments]
  have hchunk : messageChunk? source ⟨[⟨0, entryOffset 0, segments⟩], [], none⟩ =
      some (⟨refOf .read 0 0 segments, some message⟩, {}) := by
    rw [← h]
    rfl
  refine reassemble_octets source xid credit strict hcountable ?_
  rw [hchunks]
  exact payloadOf_away rfl hchunk rest

/-- **A reply that was sent away is what the reply chunk holds**, whatever follows the header. -/
theorem reassemble_ofReply (hsegments : segments.length < UInt32.size)
    (h : resolve source segments = some message) (rest : Bytes) :
    ∃ header, header.xid = xid ∧
      reassemble (headerOctets xid credit false (.ofReply segments) ++ rest) source strict =
        .ok (header, .message message {}) := by
  have hcountable : (ListedChunks.ofReply segments).Countable := by
    simpa [ListedChunks.Countable, ListedChunks.ofReply] using hsegments
  have hchunks : (ListedChunks.ofReply segments).chunks = ⟨[], [], some ⟨segments⟩⟩ := rfl
  have hchunk : messageChunk? source ⟨[], [], some ⟨segments⟩⟩ =
      some (⟨refOf .reply 0 0 segments, some message⟩, {}) := by
    rw [← h]
    rfl
  refine reassemble_octets source xid credit strict hcountable ?_
  rw [hchunks]
  exact payloadOf_away rfl hchunk rest

end Reassembly

end NfsWire.Rdma
