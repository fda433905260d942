import NfsWire.Proofs.Xdr.Walk

/-!
# Where the data of an item comes from

Behind the length word of an item there are three ways to go on: a read chunk belongs here, or a
write chunk is next for an item that may be placed in one, or the data is in line. One equation for
each says all that happens then, the refusal of a chunk of the wrong size included. Which way it is
depends on the lists of chunks only, and not on what the capture has of them; that comes in last,
by `chunkValue`.
-/

namespace NfsWire

/-- The shape is an item with a length in front: opaque data or text. -/
inductive Shape.IsItem : Shape → (wrap : Bytes → Value) → (max : Option UInt32) → (ddp : Bool) →
    Prop where
  | octets (max : Option UInt32) (ddp : Bool) :
      IsItem (.octets (.variable max) ddp) .octets max ddp
  | text (max : Option UInt32) (ddp : Bool) : IsItem (.text max ddp) .text max ddp

/-- The write chunk that is next, for an item that may be placed in one. -/
def ReadContext.writeFor? (ctx : ReadContext) (ddp : Bool) (c : Cursor) : Option Chunk :=
  if ddp ∧ ctx.useWrites then ctx.chunks.bind (·.writes[c.writesUsed]?) else none

/-- The cursor behind an item whose data came from a write chunk. -/
def Cursor.useWrite (c : Cursor) : Cursor := { c with writesUsed := c.writesUsed + 1 }

namespace Reader

variable {α β : Type} {ctx : ReadContext} {c m : Cursor}

/-- A code is refused where its word starts. -/
theorem enum_of_error {table : Table} {fixed : Bool} {code : Int32} {fault : Fault}
    (hword : c.Reads (Bytes.word code.toUInt32) m)
    (hjudge : judge table fixed ctx.strict code = .error fault) :
    enum table fixed ctx c = .error { fault, path := ctx.path, offset := c.offset } m := by
  rw [enum_of_int (int_ok_iff.mpr hword), hjudge]

/-- The data of an item, behind its length word, with a report of the chunk it was taken from. -/
def tracedData (wrap : Bytes → Value) (ddp : Bool) (n : Nat) :
    Reader (Value × List ChunkUse) := do
  let use ← use? ddp n
  match ← placed? wrap ddp n with
  | some v => return (v, use.toList)
  | none => return (wrap (← octets n), [])

theorem trace_item {shape : Shape} {wrap : Bytes → Value} {max : Option UInt32} {ddp : Bool}
    (h : shape.IsItem wrap max ddp) :
    shape.trace = length max >>= fun n => tracedData wrap ddp n.toNat := by
  cases h with
  | octets => rfl
  | text => rfl

variable {wrap : Bytes → Value} {ddp : Bool} {n : Nat} {chunk : Chunk}

theorem tracedData_read (h : ctx.readAt? c.position = some chunk) :
    tracedData wrap ddp n ctx c =
      if chunk.ref.length.toNat < n ∨ Bytes.padded n < chunk.ref.length.toNat then
        fail (.violation (.readChunkSize c.position chunk.ref.length.toNat n)) ctx c
      else
        .ok (chunkValue wrap chunk n,
          [{ position := c.position, length := n, chunk, source := .read }]) (c.splice n) := by
  unfold ReadContext.readAt? Cursor.position at h
  cases hc : ctx.chunks with
  | none => rw [hc] at h; cases h
  | some chunks =>
    rw [hc, Option.bind_some] at h
    have huse : use? ddp n ctx c =
        .ok (some { position := c.position, length := n, chunk, source := .read }) c := by
      simp [use?, hc, h, Cursor.position]
    rw [tracedData, bind_of_ok huse]
    split
    next hsize =>
      refine bind_of_error ?_
      simp only [placed?, hc, h, if_pos hsize]
      rfl
    next hsize =>
      refine (bind_of_ok (a := some (chunkValue wrap chunk n)) (m := c.splice n) ?_).trans rfl
      simp only [placed?, hc, h, if_neg hsize]
      rfl

theorem tracedData_write (hread : ctx.readAt? c.position = none)
    (hwrite : ctx.writeFor? ddp c = some chunk) :
    tracedData wrap ddp n ctx c =
      if chunk.ref.length.toNat < n then
        fail (.violation (.writeChunkSize chunk.ref.index chunk.ref.length.toNat n)) ctx c
      else
        .ok (chunkValue wrap chunk n,
          [{ position := c.position, length := n, chunk, source := .write }]) c.useWrite := by
  unfold ReadContext.readAt? Cursor.position at hread
  unfold ReadContext.writeFor? at hwrite
  split at hwrite
  next hddp =>
    cases hc : ctx.chunks with
    | none => rw [hc] at hwrite; cases hwrite
    | some chunks =>
      rw [hc, Option.bind_some] at hread hwrite
      have huse : use? ddp n ctx c =
          .ok (some { position := c.position, length := n, chunk, source := .write }) c := by
        simp [use?, hc, hread, hwrite, hddp, Cursor.position]
      rw [tracedData, bind_of_ok huse]
      split
      next hsize =>
        refine bind_of_error ?_
        simp only [placed?, hc, hread, if_pos hddp, hwrite, if_pos hsize]
        rfl
      next hsize =>
        refine (bind_of_ok (a := some (chunkValue wrap chunk n)) (m := c.useWrite) ?_).trans rfl
        simp only [placed?, hc, hread, if_pos hddp, hwrite, if_neg hsize]
        rfl
  next => cases hwrite

theorem tracedData_inline (hread : ctx.readAt? c.position = none)
    (hwrite : ctx.writeFor? ddp c = none) :
    tracedData wrap ddp n ctx c = (do return (wrap (← octets n), []) : Reader _) ctx c := by
  unfold ReadContext.readAt? Cursor.position at hread
  unfold ReadContext.writeFor? at hwrite
  have hnone : use? ddp n ctx c = .ok none c ∧ placed? wrap ddp n ctx c = .ok none c := by
    cases hc : ctx.chunks with
    | none => exact ⟨by simp [use?, hc], by simp [placed?, hc]⟩
    | some chunks =>
      rw [hc, Option.bind_some] at hread hwrite
      split at hwrite
      next hddp => exact ⟨by simp [use?, hc, hread, hwrite], by simp [placed?, hc, hread, hwrite]⟩
      next hddp => exact ⟨by simp [use?, hc, hread, hddp], by simp [placed?, hc, hread, hddp]⟩
  rw [tracedData, bind_of_ok hnone.1, bind_of_ok hnone.2]

end Reader

/-- Data within the limits conforms. -/
theorem Shape.IsItem.conforms {shape : Shape} {wrap : Bytes → Value} {max : Option UInt32}
    {ddp : Bool} (h : shape.IsItem wrap max ddp) {data : Bytes}
    (hn : (Extent.variable max).Admits data.length) : shape.Conforms (wrap data) := by
  cases h with
  | octets => exact .octets hn
  | text => exact .text hn

/-! ## What a chunk gives -/

/-- What is read of an item for which this chunk is used: its octets, as far as the chunk has them,
or the reference to the chunk if the capture lacks it. -/
structure ChunkUse.Gives (u : ChunkUse) (wrap : Bytes → Value) (v : Value) : Prop where
  present : ∀ data, u.chunk.data = some data → v = wrap (data.take u.length)
  missing : u.chunk.data = none → v = .unresolved u.chunk.ref

theorem ChunkUse.gives_chunkValue (u : ChunkUse) (wrap : Bytes → Value) :
    u.Gives wrap (Reader.chunkValue wrap u.chunk u.length) where
  present data h := by rw [Reader.chunkValue, h]
  missing h := by rw [Reader.chunkValue, h]

end NfsWire
