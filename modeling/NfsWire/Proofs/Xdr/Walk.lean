import NfsWire.Proofs.Xdr.Reading
import NfsWire.Proofs.Xdr.Trace

/-!
# Reading is walking over pieces

`Walks` says how a cursor moves over a row of pieces when some items were taken out of the
message: fixed pieces are in line, and so is an item unless a read chunk belongs at its position,
in which case the cursor stays where it is and only counts the octets as put in. Positions are
those of the whole message, so nothing in `Walks` depends on how the items nest.

The two halves of the main result speak of all shapes at once:

* `trace_walks`: whatever is read conforms, and the cursor walked over its pieces;
* `Conforms.trace_of_walks`: if the cursor can walk over the pieces of a conforming value, that
  value is read.

Neither covers write chunks, which are not tied to a position.
-/

namespace NfsWire

/-- The read chunk that belongs at a position. -/
def ReadContext.readAt? (ctx : ReadContext) (position : Nat) : Option Chunk :=
  ctx.chunks.bind (·.readAt? position)

/-- Each read chunk among the uses has all octets of its item. -/
def ReadContext.FullReads (ctx : ReadContext) (us : List ChunkUse) : Prop :=
  ∀ u ∈ us, ctx.readAt? u.position = some u.chunk → u.Full

theorem ReadContext.fullReads_append {ctx : ReadContext} {us vs : List ChunkUse} :
    ctx.FullReads (us ++ vs) ↔ ctx.FullReads us ∧ ctx.FullReads vs := List.forall_mem_append

/-- The chunk stands for an item with this data: it carries the octets and at most their padding. -/
structure Chunk.Carries (chunk : Chunk) (data : Bytes) : Prop where
  le_length : data.length ≤ chunk.ref.length.toNat
  length_le : chunk.ref.length.toNat ≤ Bytes.padded data.length
  data : ∃ all, chunk.data = some all ∧ data <+: all

/-- The cursor behind an item of `n` octets whose data came from a read chunk. -/
def Cursor.splice (c : Cursor) (n : Nat) : Cursor :=
  { c with spliced := c.spliced + Bytes.padded n }

@[simp] theorem Cursor.position_splice (c : Cursor) (n : Nat) :
    (c.splice n).position = c.position + Bytes.padded n := (Nat.add_assoc ..).symm

/-- From `c` to `c'` the cursor goes over these pieces, using these chunks. -/
inductive Walks (readAt? : Nat → Option Chunk) :
    Cursor → List Piece → List ChunkUse → Cursor → Prop where
  | nil (c : Cursor) : Walks readAt? c [] [] c
  | fixed {c m c' : Cursor} {octets : Bytes} {ps : List Piece} {us : List ChunkUse} :
      c.Reads octets m → Walks readAt? m ps us c' → Walks readAt? c (.fixed octets :: ps) us c'
  | inline {c m c' : Cursor} {data : Bytes} {ps : List Piece} {us : List ChunkUse} :
      readAt? c.position = none → c.Reads (Bytes.filled data) m → Walks readAt? m ps us c' →
      Walks readAt? c (.item data :: ps) us c'
  | placed {c c' : Cursor} {data : Bytes} {chunk : Chunk} {ps : List Piece} {us : List ChunkUse} :
      readAt? c.position = some chunk → chunk.Carries data →
      Walks readAt? (c.splice data.length) ps us c' →
      Walks readAt? c (.item data :: ps)
        ({ position := c.position, length := data.length, chunk, source := .read } :: us) c'

namespace Walks

variable {readAt? : Nat → Option Chunk} {c m c' : Cursor} {ps qs : List Piece}
  {us vs : List ChunkUse}

theorem append (h : Walks readAt? c ps us m) (h' : Walks readAt? m qs vs c') :
    Walks readAt? c (ps ++ qs) (us ++ vs) c' := by
  induction h with
  | nil => exact h'
  | fixed hr _ ih => exact .fixed hr (ih h')
  | inline hn hr _ ih => exact .inline hn hr (ih h')
  | placed hs hc _ ih => exact .placed hs hc (ih h')

theorem of_append {ws : List ChunkUse} (h : Walks readAt? c (ps ++ qs) ws c') :
    ∃ us vs m, ws = us ++ vs ∧ Walks readAt? c ps us m ∧ Walks readAt? m qs vs c' := by
  induction ps generalizing c ws with
  | nil => exact ⟨[], ws, c, rfl, .nil c, h⟩
  | cons p ps ih =>
    cases h with
    | fixed hr h =>
      obtain ⟨us, vs, m, rfl, h1, h2⟩ := ih h
      exact ⟨us, vs, m, rfl, .fixed hr h1, h2⟩
    | inline hn hr h =>
      obtain ⟨us, vs, m, rfl, h1, h2⟩ := ih h
      exact ⟨us, vs, m, rfl, .inline hn hr h1, h2⟩
    | placed hs hc h =>
      obtain ⟨us, vs, m, rfl, h1, h2⟩ := ih h
      exact ⟨_ :: us, vs, m, rfl, .placed hs hc h1, h2⟩

theorem of_reads {octets : Bytes} (h : c.Reads octets c') :
    Walks readAt? c [.fixed octets] [] c' := .fixed h (.nil c')

theorem fixed_iff {octets : Bytes} :
    Walks readAt? c (.fixed octets :: ps) us c' ↔
      ∃ m, c.Reads octets m ∧ Walks readAt? m ps us c' := by
  constructor
  · intro h
    cases h with
    | fixed hr h => exact ⟨_, hr, h⟩
  · intro h
    obtain ⟨m, hr, h⟩ := h
    exact .fixed hr h

theorem nil_iff : Walks readAt? c [] us c' ↔ us = [] ∧ c' = c := by
  constructor
  · intro h; cases h; exact ⟨rfl, rfl⟩
  · rintro ⟨rfl, rfl⟩; exact .nil _

/-- One fixed piece is read and no chunk is used. -/
theorem single_iff {octets : Bytes} :
    Walks readAt? c [.fixed octets] us c' ↔ us = [] ∧ c.Reads octets c' := by
  rw [fixed_iff]
  constructor
  · intro h
    obtain ⟨m, hr, h⟩ := h
    obtain ⟨rfl, rfl⟩ := nil_iff.mp h
    exact ⟨rfl, hr⟩
  · intro h
    obtain ⟨rfl, hr⟩ := h
    exact ⟨c', hr, .nil c'⟩

/-- The pieces that are always in line were there to be read. -/
theorem fixedSize_le (h : Walks readAt? c ps us c') :
    fixedSize ps + c'.rest.length ≤ c.rest.length := by
  induction h with
  | nil => simp
  | fixed hr _ ih =>
    have := hr.length_rest
    rw [fixedSize_cons, Piece.fixedSize]
    omega
  | inline _ hr _ ih =>
    have := hr.length_rest
    rw [fixedSize_cons, Piece.fixedSize]
    omega
  | @placed c c' data chunk ps us _ _ _ ih =>
    have hrest : (c.splice data.length).rest = c.rest := rfl
    rw [hrest] at ih
    rw [fixedSize_cons, Piece.fixedSize]
    omega

/-- Without chunks a walk reads all octets in line. -/
theorem none_iff : Walks (fun _ => none) c ps us c' ↔ us = [] ∧ c.Reads (whole ps) c' := by
  constructor
  · intro h
    induction h with
    | nil => exact ⟨rfl, Cursor.reads_nil.mpr rfl⟩
    | fixed hr _ ih => exact ⟨ih.1, Cursor.reads_append.mpr ⟨_, hr, ih.2⟩⟩
    | inline _ hr _ ih => exact ⟨ih.1, Cursor.reads_append.mpr ⟨_, hr, ih.2⟩⟩
    | placed hs => cases hs
  · intro h
    obtain ⟨rfl, h⟩ := h
    induction ps generalizing c with
    | nil =>
      cases Cursor.reads_nil.mp h
      exact .nil _
    | cons p ps ih =>
      rw [whole_cons] at h
      obtain ⟨m, hr, hrest⟩ := Cursor.reads_append.mp h
      cases p with
      | fixed octets => exact .fixed hr (ih hrest)
      | item data => exact .inline rfl hr (ih hrest)

end Walks

/-! ## Counts and items -/

namespace Reader

variable {ctx : ReadContext} {c c' : Cursor}

theorem count_ok_iff {readAt? : Nat → Option Chunk} {extent : Extent} {n : UInt32} :
    count extent ctx c = .ok n c' ↔
      extent.Admits n.toNat ∧ Walks readAt? c (Shape.countPieces extent n.toNat) [] c' := by
  obtain size | max := extent
  · rw [Shape.countPieces, Extent.admits_fixed, Walks.nil_iff, UInt32.toNat_inj]
    exact pure_ok_iff.trans (by simp)
  · rw [Shape.countPieces, Walks.single_iff, UInt32.ofNat_toNat]
    exact length_ok_iff.trans (by simp)

theorem use?_eq (hw : ctx.useWrites = false) (ddp : Bool) (n : Nat) :
    use? ddp n ctx c = .ok ((ctx.readAt? c.position).map fun chunk =>
      { position := c.position, length := n, chunk, source := .read }) c := by
  unfold use? ReadContext.readAt? Cursor.position
  cases ctx.chunks with
  | none => rfl
  | some chunks =>
    dsimp only [Option.bind_some]
    cases chunks.readAt? (c.offset + c.spliced) <;> simp [hw]

theorem placed?_eq_none (hw : ctx.useWrites = false) (h : ctx.readAt? c.position = none)
    (wrap : Bytes → Value) (ddp : Bool) (n : Nat) : placed? wrap ddp n ctx c = .ok none c := by
  unfold ReadContext.readAt? Cursor.position at h
  unfold placed?
  cases hc : ctx.chunks with
  | none => rfl
  | some chunks =>
    rw [hc, Option.bind_some] at h
    simp [h, hw]

theorem placed?_ok_iff {chunk : Chunk} (h : ctx.readAt? c.position = some chunk)
    {wrap : Bytes → Value} {ddp : Bool} {n : Nat} {r : Option Value} :
    placed? wrap ddp n ctx c = .ok r c' ↔
      n ≤ chunk.ref.length.toNat ∧ chunk.ref.length.toNat ≤ Bytes.padded n ∧
        r = some (chunkValue wrap chunk n) ∧ c' = c.splice n := by
  unfold ReadContext.readAt? Cursor.position at h
  unfold placed?
  cases hc : ctx.chunks with
  | none => rw [hc] at h; cases h
  | some chunks =>
    rw [hc, Option.bind_some] at h
    simp only [h]
    split
    · rename_i hsize
      constructor
      · intro h; exact absurd h failAt_ne_ok
      · rintro ⟨h1, h2, -⟩; omega
    · rename_i hsize
      constructor
      · intro h; cases h; exact ⟨by omega, by omega, rfl, rfl⟩
      · rintro ⟨-, -, rfl, rfl⟩; rfl

theorem chunkValue_eq {chunk : Chunk} {data : Bytes} (h : chunk.Carries data)
    (wrap : Bytes → Value) : chunkValue wrap chunk data.length = wrap data := by
  obtain ⟨all, hall, hprefix⟩ := h.data
  have htake : all.take data.length = data := (List.prefix_iff_eq_take.mp hprefix).symm
  simp [chunkValue, hall, htake]

/-- The pieces of an item with a length word in front. -/
def itemPieces (data : Bytes) : List Piece :=
  [.fixed (Bytes.word (UInt32.ofNat data.length)), .item data]

theorem tracedItem_walks (hw : ctx.useWrites = false) {wrap : Bytes → Value} {max : Option UInt32}
    {ddp : Bool} {v : Value} {us : List ChunkUse}
    (h : tracedItem wrap max ddp ctx c = .ok (v, us) c') (hfull : ctx.FullReads us) :
    ∃ data, v = wrap data ∧ (Extent.variable max).Admits data.length ∧
      Walks ctx.readAt? c (itemPieces data) us c' := by
  obtain ⟨n, m, hlength, h⟩ := bind_ok_iff.mp h
  obtain ⟨hn, hword⟩ := length_ok_iff.mp hlength
  obtain ⟨use, m', huse, h⟩ := bind_ok_iff.mp h
  rw [use?_eq hw] at huse
  cases huse
  obtain ⟨r, m', hplaced, h⟩ := bind_ok_iff.mp h
  cases hat : ctx.readAt? m.position with
  | none =>
    rw [placed?_eq_none hw hat] at hplaced
    cases hplaced
    obtain ⟨data, m', hdata, h⟩ := bind_ok_iff.mp h
    obtain ⟨he, rfl⟩ := pure_ok_iff.mp h
    cases he
    obtain ⟨hlen, hreads⟩ := octets_ok_iff.mp hdata
    refine ⟨data, rfl, hlen ▸ hn, .fixed ?_ (.inline hat hreads (.nil _))⟩
    rw [hlen, UInt32.ofNat_toNat]
    exact hword
  | some chunk =>
    obtain ⟨hle, hge, rfl, rfl⟩ := (placed?_ok_iff hat).mp hplaced
    obtain ⟨he, rfl⟩ := pure_ok_iff.mp h
    cases he
    rw [hat] at hfull ⊢
    obtain ⟨data, hdata, hlen⟩ :
        ∃ data, chunk.data = some data ∧ n.toNat ≤ data.length :=
      hfull { position := m.position, length := n.toNat, chunk, source := .read }
        (List.mem_singleton.mpr rfl) hat
    -- The chunk may hold more than the item, which is then the front of it.
    obtain ⟨d, hd, hdlen⟩ : ∃ d, d = data.take n.toNat ∧ d.length = n.toNat :=
      ⟨_, rfl, List.length_take.trans (Nat.min_eq_left hlen)⟩
    have hprefix : d <+: data := hd ▸ List.take_prefix ..
    refine ⟨d, by simp [chunkValue, hdata, hd], hdlen ▸ hn, ?_⟩
    rw [← hdlen] at hle hge ⊢
    refine .fixed ?_ (.placed hat ⟨hle, hge, data, hdata, hprefix⟩ (.nil _))
    rw [hdlen, UInt32.ofNat_toNat]
    exact hword

theorem tracedItem_of_walks (hw : ctx.useWrites = false) {wrap : Bytes → Value}
    {max : Option UInt32} {ddp : Bool} {data : Bytes} {us : List ChunkUse}
    (hn : (Extent.variable max).Admits data.length)
    (h : Walks ctx.readAt? c (itemPieces data) us c') :
    tracedItem wrap max ddp ctx c = .ok (wrap data, us) c' := by
  obtain ⟨m, hword, h⟩ := Walks.fixed_iff.mp h
  have hlen : (UInt32.ofNat data.length).toNat = data.length :=
    UInt32.toNat_ofNat_of_lt' (Extent.admits_variable.mp hn).1
  refine bind_ok_iff.mpr ⟨_, m, length_ok_iff.mpr ⟨hlen.symm ▸ hn, hword⟩, ?_⟩
  rw [hlen]
  refine bind_ok_iff.mpr ⟨_, m, use?_eq hw ddp data.length, ?_⟩
  cases h with
  | inline hat hr h =>
    obtain ⟨rfl, rfl⟩ := Walks.nil_iff.mp h
    refine bind_ok_iff.mpr ⟨none, m, placed?_eq_none hw hat .., ?_⟩
    exact bind_ok_iff.mpr ⟨data, c', octets_ok_iff.mpr ⟨rfl, hr⟩, pure_ok_iff.mpr ⟨rfl, rfl⟩⟩
  | placed hat hc h =>
    obtain ⟨rfl, rfl⟩ := Walks.nil_iff.mp h
    refine bind_ok_iff.mpr ⟨_, _, (placed?_ok_iff hat).mpr
      ⟨hc.le_length, hc.length_le, rfl, rfl⟩, pure_ok_iff.mpr ⟨?_, rfl⟩⟩
    rw [hat, chunkValue_eq hc]
    rfl

end Reader

/-! ## What is read conforms -/

namespace Shape

open Reader

/-- Whatever the trace reads conforms, and the cursor walked over its pieces. -/
def TraceWalks (shape : Shape) : Prop :=
  ∀ {ctx : ReadContext} {c c' : Cursor} {v : Value} {us : List ChunkUse},
    ctx.useWrites = false → shape.trace ctx c = .ok (v, us) c' → ctx.FullReads us →
      shape.Conforms v ∧ Walks ctx.readAt? c (shape.layout v) us c'

variable {ctx : ReadContext} {c c' : Cursor}

theorem TraceWalks.within {shape : Shape} (h : shape.TraceWalks) (hw : ctx.useWrites = false)
    {segment : Segment} {v : Value} {us : List ChunkUse}
    (hr : Reader.within segment shape.trace ctx c = .ok (v, us) c') (hfull : ctx.FullReads us) :
    shape.Conforms v ∧ Walks ctx.readAt? c (shape.layout v) us c' :=
  @h { ctx with path := ctx.path ++ [segment] } c c' v us hw hr hfull

/-- A leaf is one primitive and uses no chunk. -/
theorem leaf_ok_iff {β : Type} {x : Reader β} {wrap : β → Value} {v : Value}
    {us : List ChunkUse} :
    (do return (← (do return wrap (← x)), []) : Reader (Value × List ChunkUse)) ctx c =
        .ok (v, us) c' ↔
      ∃ b, x ctx c = .ok b c' ∧ v = wrap b ∧ us = [] := by
  constructor
  · intro h
    obtain ⟨w, m, hw, hpair⟩ := bind_ok_iff.mp h
    obtain ⟨he, rfl⟩ := pure_ok_iff.mp hpair
    obtain ⟨rfl, rfl⟩ := Prod.mk.inj he
    obtain ⟨b, m, hx, hwrap⟩ := bind_ok_iff.mp hw
    obtain ⟨rfl, rfl⟩ := pure_ok_iff.mp hwrap
    exact ⟨b, hx, rfl, rfl⟩
  · intro h
    obtain ⟨b, hx, rfl, rfl⟩ := h
    exact bind_ok_iff.mpr ⟨wrap b, c', bind_ok_iff.mpr ⟨b, c', hx, pure_ok_iff.mpr ⟨rfl, rfl⟩⟩,
      pure_ok_iff.mpr ⟨rfl, rfl⟩⟩

/-- A leaf that accepts one run of octets for each result is one fixed piece. -/
theorem leaf_walks_iff {β : Type} {x : Reader β} {octets : β → Bytes}
    (hx : ∀ {c c' : Cursor} {b : β}, x ctx c = .ok b c' ↔ c.Reads (octets b) c')
    {readAt? : Nat → Option Chunk} {wrap : β → Value} {v : Value} {us : List ChunkUse} :
    (do return (← (do return wrap (← x)), []) : Reader (Value × List ChunkUse)) ctx c =
        .ok (v, us) c' ↔
      ∃ b, v = wrap b ∧ Walks readAt? c [.fixed (octets b)] us c' := by
  rw [leaf_ok_iff]
  constructor
  · intro h
    obtain ⟨b, hread, rfl, rfl⟩ := h
    exact ⟨b, rfl, Walks.single_iff.mpr ⟨rfl, hx.mp hread⟩⟩
  · intro h
    obtain ⟨b, rfl, hwalk⟩ := h
    obtain ⟨rfl, hr⟩ := Walks.single_iff.mp hwalk
    exact ⟨b, hx.mpr hr, rfl, rfl⟩

/-- A union is read as its discriminant and the arm which that selects. -/
theorem trace_union_ok_iff {disc : Shape} {arms : List (Int × String × Shape)}
    {fallback : Option (String × Shape)} {v : Value} {us : List ChunkUse} :
    (Shape.union disc arms fallback).trace ctx c = .ok (v, us) c' ↔
      ∃ d vs m code name s x ws, disc.trace ctx c = .ok (d, vs) m ∧ d.armCode? = some code ∧
        arm? arms fallback code = some (name, s) ∧
        Reader.within (.name name) s.trace ctx m = .ok (x, ws) c' ∧
        v = .union d name x ∧ us = vs ++ ws := by
  rw [trace, offset_bind_apply, bind_ok_iff]
  constructor
  · intro h
    obtain ⟨⟨d, vs⟩, m, hdisc, h⟩ := h
    cases hcode : d.armCode? with
    | none =>
      simp only [hcode] at h
      exact absurd h failAt_ne_ok
    | some code =>
      simp only [hcode, traceArm_eq] at h
      obtain ⟨⟨⟨name, x⟩, ws⟩, m', harm, hpair⟩ := bind_ok_iff.mp h
      obtain ⟨he, rfl⟩ := pure_ok_iff.mp hpair
      obtain ⟨rfl, rfl⟩ := Prod.mk.inj he
      cases hs : arm? arms fallback code with
      | none =>
        rw [hs] at harm
        exact absurd harm failAt_ne_ok
      | some arm =>
        rw [hs] at harm
        obtain ⟨⟨y, us⟩, hcontent, he⟩ := map_ok_iff.mp harm
        cases he
        exact ⟨d, vs, m, code, arm.1, arm.2, _, _, hdisc, hcode, hs, hcontent, rfl, rfl⟩
  · intro h
    obtain ⟨d, vs, m, code, name, s, x, ws, hdisc, hcode, hs, hx, rfl, rfl⟩ := h
    refine ⟨(d, vs), m, hdisc, ?_⟩
    simp only [hcode, traceArm_eq, hs]
    exact bind_ok_iff.mpr ⟨((name, x), ws), c', map_ok_iff.mpr ⟨(x, ws), hx, rfl⟩,
      pure_ok_iff.mpr ⟨rfl, rfl⟩⟩

theorem repeated_walks {elem : Shape} (h : elem.TraceWalks) (hw : ctx.useWrites = false)
    {n i : Nat} {parts : List (Value × List ChunkUse)}
    (hr : repeated elem.trace i n ctx c = .ok parts c')
    (hfull : ctx.FullReads (parts.flatMap (·.2))) :
    parts.length = n ∧ (∀ v ∈ parts.map (·.1), elem.Conforms v) ∧
      Walks ctx.readAt? c ((parts.map (·.1)).flatMap elem.layout) (parts.flatMap (·.2)) c' := by
  induction n generalizing i c parts with
  | zero =>
    obtain ⟨rfl, rfl⟩ := pure_ok_iff.mp hr
    exact ⟨rfl, by simp, .nil _⟩
  | succ n ih =>
    obtain ⟨⟨v, us⟩, m, helem, hr⟩ := bind_ok_iff.mp hr
    obtain ⟨rest, m', hrest, hr⟩ := bind_ok_iff.mp hr
    obtain ⟨rfl, rfl⟩ := pure_ok_iff.mp hr
    rw [List.flatMap_cons, ReadContext.fullReads_append] at hfull
    obtain ⟨hv, hwalk⟩ := h.within hw helem hfull.1
    obtain ⟨hlen, hvs, hwalks⟩ := ih hrest hfull.2
    refine ⟨by rw [List.length_cons, hlen], List.forall_mem_cons.mpr ⟨hv, hvs⟩, ?_⟩
    rw [List.map_cons, List.flatMap_cons, List.flatMap_cons]
    exact hwalk.append hwalks

/-- The pieces of a chain, each element with its flag. -/
def chainPieces (elem : Shape) (items : List Value) : List Piece :=
  items.flatMap (fun v => .fixed (flagWord true) :: elem.layout v) ++ [.fixed (flagWord false)]

/-- A flag takes four octets, so the bound on the number of flags is never reached. -/
theorem announced_walks {elem : Shape} (h : elem.TraceWalks) (hw : ctx.useWrites = false)
    {fuel i : Nat} {parts : List (Value × List ChunkUse)} (hroom : c.rest.length < 4 * fuel)
    (hr : announced elem.trace fuel i ctx c = .ok parts c')
    (hfull : ctx.FullReads (parts.flatMap (·.2))) :
    (∀ v ∈ parts.map (·.1), elem.Conforms v) ∧
      Walks ctx.readAt? c (chainPieces elem (parts.map (·.1))) (parts.flatMap (·.2)) c' := by
  induction fuel generalizing i c parts with
  | zero => omega
  | succ fuel ih =>
    obtain ⟨b, m, hflag, hr⟩ := bind_ok_iff.mp hr
    have hflag := flag_ok_iff.mp hflag
    cases b with
    | false =>
      obtain ⟨rfl, rfl⟩ := pure_ok_iff.mp hr
      exact ⟨by simp, .of_reads hflag⟩
    | true =>
      obtain ⟨⟨v, us⟩, m', helem, hr⟩ := bind_ok_iff.mp hr
      obtain ⟨rest, m'', hrest, hr⟩ := bind_ok_iff.mp hr
      obtain ⟨rfl, rfl⟩ := pure_ok_iff.mp hr
      rw [List.flatMap_cons, ReadContext.fullReads_append] at hfull
      obtain ⟨hv, hwalk⟩ := h.within hw helem hfull.1
      -- The flag that was read takes a word, so one less fuel is enough for what is left.
      have hroom' : m'.rest.length < 4 * fuel := by
        have hword : (flagWord true).length = 4 := Bytes.length_word _
        have hused := hflag.length_rest
        have hleft := hwalk.fixedSize_le
        omega
      obtain ⟨hvs, hwalks⟩ := ih hroom' hrest hfull.2
      refine ⟨List.forall_mem_cons.mpr ⟨hv, hvs⟩, ?_⟩
      rw [chainPieces, List.map_cons, List.flatMap_cons, List.flatMap_cons, List.append_assoc]
      exact .fixed hflag (hwalk.append hwalks)

theorem chain_walks {elem : Shape} (h : elem.TraceWalks) (hw : ctx.useWrites = false)
    {parts : List (Value × List ChunkUse)} (hr : Reader.chain elem.trace ctx c = .ok parts c')
    (hfull : ctx.FullReads (parts.flatMap (·.2))) :
    (∀ v ∈ parts.map (·.1), elem.Conforms v) ∧
      Walks ctx.readAt? c (chainPieces elem (parts.map (·.1))) (parts.flatMap (·.2)) c' :=
  announced_walks h hw (by omega) hr hfull

theorem traceFields_walks {fields : List (String × Shape)} (h : ∀ f ∈ fields, f.2.TraceWalks)
    (hw : ctx.useWrites = false) {record : Fields} {us : List ChunkUse}
    (hr : traceFields fields ctx c = .ok (record, us) c') (hfull : ctx.FullReads us) :
    record.map (·.1) = fields.map (·.1) ∧ (∀ p ∈ fields.zip record, p.1.2.Conforms p.2.2) ∧
      Walks ctx.readAt? c ((fields.zip record).flatMap fun p => p.1.2.layout p.2.2) us c' := by
  induction fields generalizing c record us with
  | nil =>
    obtain ⟨he, rfl⟩ := pure_ok_iff.mp hr
    cases he
    exact ⟨rfl, by simp, .nil _⟩
  | cons f rest ih =>
    obtain ⟨⟨v, us⟩, m, hfield, hr⟩ := bind_ok_iff.mp hr
    obtain ⟨⟨record, vs⟩, m', hrest, hr⟩ := bind_ok_iff.mp hr
    obtain ⟨he, rfl⟩ := pure_ok_iff.mp hr
    cases he
    rw [ReadContext.fullReads_append] at hfull
    obtain ⟨hv, hwalk⟩ := TraceWalks.within (h f List.mem_cons_self) hw hfield hfull.1
    obtain ⟨hnames, hvs, hwalks⟩ :=
      ih (fun g hg => h g (List.mem_cons_of_mem _ hg)) hrest hfull.2
    refine ⟨by rw [List.map_cons, List.map_cons, hnames],
      List.forall_mem_cons.mpr ⟨hv, hvs⟩, ?_⟩
    rw [List.zip_cons_cons, List.flatMap_cons]
    exact hwalk.append hwalks

/-- **Whatever is read conforms, and the cursor walked over its pieces.** -/
theorem trace_walks (shape : Shape) : shape.TraceWalks := by
  induction shape with
  | void =>
    intro ctx c c' v us hw h hfull
    obtain ⟨v, m, hvoid, hpair⟩ := bind_ok_iff.mp h
    obtain ⟨rfl, rfl⟩ := pure_ok_iff.mp hvoid
    obtain ⟨he, rfl⟩ := pure_ok_iff.mp hpair
    cases he
    exact ⟨.void, .nil _⟩
  | int =>
    intro ctx c c' v us hw h hfull
    obtain ⟨v, rfl, hwalk⟩ := (leaf_walks_iff int_ok_iff).mp h
    exact ⟨.int v, hwalk⟩
  | uint =>
    intro ctx c c' v us hw h hfull
    obtain ⟨v, rfl, hwalk⟩ := (leaf_walks_iff uint_ok_iff).mp h
    exact ⟨.uint v, hwalk⟩
  | hyper =>
    intro ctx c c' v us hw h hfull
    obtain ⟨v, rfl, hwalk⟩ := (leaf_walks_iff hyper_ok_iff).mp h
    exact ⟨.hyper v, hwalk⟩
  | uhyper =>
    intro ctx c c' v us hw h hfull
    obtain ⟨v, rfl, hwalk⟩ := (leaf_walks_iff uhyper_ok_iff).mp h
    exact ⟨.uhyper v, hwalk⟩
  | bool =>
    intro ctx c c' v us hw h hfull
    obtain ⟨b, rfl, hwalk⟩ := (leaf_walks_iff flag_ok_iff).mp h
    exact ⟨.bool b, hwalk⟩
  | enum table fixed =>
    intro ctx c c' v us hw h hfull
    obtain ⟨v, m, henum, h⟩ := bind_ok_iff.mp h
    obtain ⟨he, rfl⟩ := pure_ok_iff.mp h
    cases he
    obtain ⟨code, hj, hr⟩ := enum_ok_iff.mp henum
    obtain ⟨rfl, husable, -⟩ := judge_ok_iff.mp hj
    exact ⟨.enum husable, .of_reads hr⟩
  | octets extent ddp =>
    intro ctx c c' v us hw h hfull
    obtain size | max := extent
    · obtain ⟨data, hr, rfl, rfl⟩ := leaf_ok_iff.mp h
      obtain ⟨hlen, hr⟩ := octets_ok_iff.mp hr
      exact ⟨.octets (Extent.admits_fixed.mpr hlen), .of_reads hr⟩
    · obtain ⟨data, rfl, hn, hwalk⟩ := tracedItem_walks hw h hfull
      exact ⟨.octets hn, hwalk⟩
  | text max ddp =>
    intro ctx c c' v us hw h hfull
    obtain ⟨data, rfl, hn, hwalk⟩ := tracedItem_walks hw h hfull
    exact ⟨.text hn, hwalk⟩
  | array elem extent ih =>
    intro ctx c c' v us hw h hfull
    rw [trace_array] at h
    obtain ⟨n, m, hcount, hrest₁⟩ := bind_ok_iff.mp h
    obtain ⟨hn, hword⟩ := count_ok_iff.mp hcount
    obtain ⟨_, m₁, hroom, hrest₂⟩ := bind_ok_iff.mp hrest₁
    obtain ⟨-, rfl⟩ := room_ok_iff.mp hroom
    obtain ⟨parts, m₂, hparts, hpair⟩ := bind_ok_iff.mp hrest₂
    obtain ⟨he, rfl⟩ := pure_ok_iff.mp hpair
    obtain ⟨rfl, rfl⟩ := Prod.mk.inj he
    obtain ⟨hlen, hvs, hwalk⟩ := repeated_walks ih hw hparts hfull
    have hlen' : (parts.map (·.1)).length = n.toNat := (List.length_map ..).trans hlen
    refine ⟨.array (hlen'.symm ▸ hn) hvs, ?_⟩
    rw [layout, hlen']
    exact hword.append hwalk
  | chain elem ih =>
    intro ctx c c' v us hw h hfull
    obtain ⟨parts, m, hparts, h⟩ := bind_ok_iff.mp h
    obtain ⟨he, rfl⟩ := pure_ok_iff.mp h
    cases he
    obtain ⟨hvs, hwalk⟩ := chain_walks ih hw hparts hfull
    exact ⟨.chain hvs, hwalk⟩
  | optional inner ih =>
    intro ctx c c' v us hw h hfull
    obtain ⟨b, m, hflag, h⟩ := bind_ok_iff.mp h
    have hflag := flag_ok_iff.mp hflag
    cases b with
    | false =>
      obtain ⟨he, rfl⟩ := pure_ok_iff.mp h
      cases he
      exact ⟨.absent, .of_reads hflag⟩
    | true =>
      obtain ⟨⟨v, us⟩, m', hinner, h⟩ := bind_ok_iff.mp h
      obtain ⟨he, rfl⟩ := pure_ok_iff.mp h
      cases he
      obtain ⟨hv, hwalk⟩ := ih hw hinner hfull
      exact ⟨.present hv, .fixed hflag hwalk⟩
  | struct fields ih =>
    intro ctx c c' v us hw h hfull
    obtain ⟨⟨record, us⟩, m, hfields, h⟩ := bind_ok_iff.mp h
    obtain ⟨he, rfl⟩ := pure_ok_iff.mp h
    cases he
    obtain ⟨hnames, hvs, hwalk⟩ := traceFields_walks ih hw hfields hfull
    exact ⟨.struct hnames hvs, layout_struct fields record ▸ hwalk⟩
  | union disc arms fallback ihd iha ihf =>
    intro ctx c c' v us hw h hfull
    obtain ⟨d, vs, m, code, name, s, x, ws, hdisc, hcode, hs, hx, rfl, rfl⟩ :=
      trace_union_ok_iff.mp h
    rw [ReadContext.fullReads_append] at hfull
    obtain ⟨hd, hwalk⟩ := ihd hw hdisc hfull.1
    have harm : s.TraceWalks := of_arm? (motive := TraceWalks) iha ihf hs
    obtain ⟨hx, hwalks⟩ := TraceWalks.within harm hw hx hfull.2
    refine ⟨.union hd hcode hs hx, ?_⟩
    rw [layout_union hcode hs]
    exact hwalk.append hwalks

/-! ## What conforms is read -/

/-- Wherever a cursor can walk over the pieces of the value, the value is traced, in strict reading
if all its codes have names. -/
def Traces (shape : Shape) (v : Value) : Prop :=
  ∀ {ctx : ReadContext} {c c' : Cursor} {us : List ChunkUse},
    ctx.useWrites = false → (ctx.strict = true → v.named = true) →
      Walks ctx.readAt? c (shape.layout v) us c' → shape.trace ctx c = .ok (v, us) c'

theorem Traces.within {shape : Shape} {v : Value} (h : shape.Traces v)
    (hw : ctx.useWrites = false) (hnamed : ctx.strict = true → v.named = true) (segment : Segment)
    {us : List ChunkUse} (hwalk : Walks ctx.readAt? c (shape.layout v) us c') :
    Reader.within segment shape.trace ctx c = .ok (v, us) c' :=
  @h { ctx with path := ctx.path ++ [segment] } c c' us hw hnamed hwalk

theorem repeated_of_walks {elem : Shape} {items : List Value} (h : ∀ v ∈ items, elem.Traces v)
    (hw : ctx.useWrites = false) (hnamed : ctx.strict = true → ∀ v ∈ items, v.named = true)
    {i : Nat} {us : List ChunkUse}
    (hwalk : Walks ctx.readAt? c (items.flatMap elem.layout) us c') :
    ∃ parts, repeated elem.trace i items.length ctx c = .ok parts c' ∧
      parts.map (·.1) = items ∧ parts.flatMap (·.2) = us := by
  induction items generalizing i c us with
  | nil =>
    obtain ⟨rfl, rfl⟩ := Walks.nil_iff.mp hwalk
    exact ⟨[], pure_ok_iff.mpr ⟨rfl, rfl⟩, rfl, rfl⟩
  | cons v items ih =>
    rw [List.flatMap_cons] at hwalk
    obtain ⟨vs, ws, m, rfl, hfirst, hrest⟩ := hwalk.of_append
    have hv := Traces.within (h v List.mem_cons_self) hw
      (fun hstrict => hnamed hstrict v List.mem_cons_self) (.index i) hfirst
    obtain ⟨parts, hparts, rfl, rfl⟩ :=
      ih (fun x hx => h x (List.mem_cons_of_mem _ hx))
        (fun hstrict x hx => hnamed hstrict x (List.mem_cons_of_mem _ hx)) (i := i + 1) hrest
    refine ⟨(v, vs) :: parts, ?_, rfl, List.flatMap_cons⟩
    exact bind_ok_iff.mpr ⟨_, m, hv, bind_ok_iff.mpr ⟨_, c', hparts, pure_ok_iff.mpr ⟨rfl, rfl⟩⟩⟩

/-- The fuel of a chain lasts for all of it. -/
theorem announced_of_walks {elem : Shape} {items : List Value} (h : ∀ v ∈ items, elem.Traces v)
    (hw : ctx.useWrites = false) (hnamed : ctx.strict = true → ∀ v ∈ items, v.named = true)
    {fuel i : Nat} (hfuel : items.length < fuel) {us : List ChunkUse}
    (hwalk : Walks ctx.readAt? c (chainPieces elem items) us c') :
    ∃ parts, announced elem.trace fuel i ctx c = .ok parts c' ∧
      parts.map (·.1) = items ∧ parts.flatMap (·.2) = us := by
  induction fuel generalizing items i c us with
  | zero => omega
  | succ fuel ih =>
    cases items with
    | nil =>
      obtain ⟨rfl, hflag⟩ := Walks.single_iff.mp hwalk
      exact ⟨[], bind_ok_iff.mpr ⟨false, c', flag_ok_iff.mpr hflag, pure_ok_iff.mpr ⟨rfl, rfl⟩⟩,
        rfl, rfl⟩
    | cons v items =>
      rw [chainPieces, List.flatMap_cons, List.append_assoc] at hwalk
      obtain ⟨m, hflag, hwalk⟩ := Walks.fixed_iff.mp hwalk
      obtain ⟨vs, ws, m', rfl, hfirst, hrest⟩ := hwalk.of_append
      have hv := Traces.within (h v List.mem_cons_self) hw
        (fun hstrict => hnamed hstrict v List.mem_cons_self) (.index i) hfirst
      have hfuel' : items.length < fuel := Nat.lt_of_succ_lt_succ hfuel
      obtain ⟨parts, hparts, rfl, rfl⟩ :=
        ih (fun x hx => h x (List.mem_cons_of_mem _ hx))
          (fun hstrict x hx => hnamed hstrict x (List.mem_cons_of_mem _ hx)) hfuel' (i := i + 1)
          hrest
      refine ⟨(v, vs) :: parts, ?_, rfl, List.flatMap_cons⟩
      refine bind_ok_iff.mpr ⟨true, m, flag_ok_iff.mpr hflag, ?_⟩
      exact bind_ok_iff.mpr ⟨_, m', hv,
        bind_ok_iff.mpr ⟨_, c', hparts, pure_ok_iff.mpr ⟨rfl, rfl⟩⟩⟩

/-- Each element of a chain has its flag, and so has the end. -/
theorem le_fixedSize_chainPieces (elem : Shape) (items : List Value) :
    4 * items.length + 4 ≤ fixedSize (chainPieces elem items) := by
  have hflag (b : Bool) : (Piece.fixed (flagWord b)).fixedSize = 4 := Bytes.length_word _
  have helems : 4 * items.length ≤
      fixedSize (items.flatMap fun v => .fixed (flagWord true) :: elem.layout v) :=
    mul_le_fixedSize_flatMap fun v _ => by
      rw [fixedSize_cons, hflag]
      omega
  rw [chainPieces, fixedSize_append, fixedSize_cons, fixedSize_nil, hflag]
  omega

theorem chain_of_walks {elem : Shape} {items : List Value} (h : ∀ v ∈ items, elem.Traces v)
    (hw : ctx.useWrites = false) (hnamed : ctx.strict = true → ∀ v ∈ items, v.named = true)
    {us : List ChunkUse} (hwalk : Walks ctx.readAt? c (chainPieces elem items) us c') :
    ∃ parts, Reader.chain elem.trace ctx c = .ok parts c' ∧
      parts.map (·.1) = items ∧ parts.flatMap (·.2) = us := by
  have hsize := le_fixedSize_chainPieces elem items
  have hroom := hwalk.fixedSize_le
  exact announced_of_walks h hw hnamed (by omega) hwalk

theorem traceFields_of_walks {fields : List (String × Shape)} {record : Fields}
    (hnames : record.map (·.1) = fields.map (·.1))
    (h : ∀ p ∈ fields.zip record, p.1.2.Traces p.2.2) (hw : ctx.useWrites = false)
    (hnamed : ctx.strict = true → ∀ f ∈ record, f.2.named = true) {us : List ChunkUse}
    (hwalk : Walks ctx.readAt? c ((fields.zip record).flatMap fun p => p.1.2.layout p.2.2) us c') :
    traceFields fields ctx c = .ok (record, us) c' := by
  induction fields generalizing record c us with
  | nil =>
    obtain ⟨rfl, rfl⟩ := Walks.nil_iff.mp hwalk
    rw [List.map_eq_nil_iff.mp hnames]
    exact pure_ok_iff.mpr ⟨rfl, rfl⟩
  | cons f rest ih =>
    cases record with
    | nil => simp at hnames
    | cons r record =>
      obtain ⟨name, v⟩ := r
      obtain ⟨hname, hnames⟩ := List.cons_eq_cons.mp hnames
      rw [List.zip_cons_cons, List.flatMap_cons] at hwalk
      obtain ⟨vs, ws, m, rfl, hfirst, hrest⟩ := hwalk.of_append
      have hv := Traces.within (h (f, name, v) List.mem_cons_self) hw
        (fun hstrict => hnamed hstrict (name, v) List.mem_cons_self) (.name f.1) hfirst
      have hrecord := ih hnames (fun p hp => h p (List.mem_cons_of_mem _ hp))
        (fun hstrict p hp => hnamed hstrict p (List.mem_cons_of_mem _ hp)) hrest
      refine bind_ok_iff.mpr ⟨(v, vs), m, hv, bind_ok_iff.mpr ⟨(record, ws), c', hrecord, ?_⟩⟩
      have hname : name = f.1 := hname
      exact pure_ok_iff.mpr ⟨by rw [hname], rfl⟩

/-- **If a cursor can walk over the pieces of a conforming value, that value is read.** -/
theorem Conforms.trace_of_walks {shape : Shape} {v : Value} (h : shape.Conforms v) :
    shape.Traces v := by
  induction h with
  | void =>
    intro ctx c c' us hw hnamed hwalk
    obtain ⟨rfl, rfl⟩ := Walks.nil_iff.mp hwalk
    rfl
  | int v =>
    intro ctx c c' us hw hnamed hwalk
    exact (leaf_walks_iff int_ok_iff).mpr ⟨v, rfl, hwalk⟩
  | uint v =>
    intro ctx c c' us hw hnamed hwalk
    exact (leaf_walks_iff uint_ok_iff).mpr ⟨v, rfl, hwalk⟩
  | hyper v =>
    intro ctx c c' us hw hnamed hwalk
    exact (leaf_walks_iff hyper_ok_iff).mpr ⟨v, rfl, hwalk⟩
  | uhyper v =>
    intro ctx c c' us hw hnamed hwalk
    exact (leaf_walks_iff uhyper_ok_iff).mpr ⟨v, rfl, hwalk⟩
  | bool b =>
    intro ctx c c' us hw hnamed hwalk
    exact (leaf_walks_iff flag_ok_iff).mpr ⟨b, rfl, hwalk⟩
  | @enum table fixed code husable =>
    intro ctx c c' us hw hnamed hwalk
    obtain ⟨rfl, hr⟩ := Walks.single_iff.mp hwalk
    have hjudge : judge table fixed ctx.strict code = .ok (.enum code (table.name? code)) :=
      judge_ok_iff.mpr ⟨rfl, husable, hnamed⟩
    exact bind_ok_iff.mpr ⟨_, c', enum_ok_iff.mpr ⟨code, hjudge, hr⟩, pure_ok_iff.mpr ⟨rfl, rfl⟩⟩
  | @octets extent ddp data hn =>
    intro ctx c c' us hw hnamed hwalk
    obtain size | max := extent
    · obtain ⟨rfl, hr⟩ := Walks.single_iff.mp hwalk
      exact leaf_ok_iff.mpr ⟨data, octets_ok_iff.mpr ⟨Extent.admits_fixed.mp hn, hr⟩, rfl, rfl⟩
    · exact tracedItem_of_walks hw hn hwalk
  | text hn =>
    intro ctx c c' us hw hnamed hwalk
    exact tracedItem_of_walks hw hn hwalk
  | @array elem extent items hn hitems ih =>
    intro ctx c c' us hw hnamed hwalk
    have hcount : (UInt32.ofNat items.length).toNat = items.length := by
      obtain size | max := extent
      · rw [Extent.admits_fixed.mp hn, UInt32.ofNat_toNat]
      · exact UInt32.toNat_ofNat_of_lt' (Extent.admits_variable.mp hn).1
    rw [layout] at hwalk
    obtain ⟨vs, ws, m, rfl, hword, hrest⟩ := hwalk.of_append
    -- A count is never in a chunk.
    have hnone : vs = [] := by
      obtain size | max := extent
      · exact (Walks.nil_iff.mp hword).1
      · exact (Walks.single_iff.mp hword).1
    subst hnone
    -- Each element leaves its least room in the message, so together they are not refused.
    have hroom : need items.length elem.minSize ≤ m.rest.length := by
      have hneed := need_le items.length elem.minSize
      have helems := mul_le_fixedSize_flatMap fun v hv => (hitems v hv).minSize_le
      have hleft := hrest.fixedSize_le
      rw [Nat.mul_comm] at helems
      omega
    obtain ⟨parts, hparts, rfl, rfl⟩ := repeated_of_walks ih hw
      (fun hstrict => Value.named_array.mp (hnamed hstrict)) (i := 0) hrest
    rw [trace_array]
    refine bind_ok_iff.mpr ⟨_, m, count_ok_iff.mpr ⟨hcount.symm ▸ hn, hcount.symm ▸ hword⟩, ?_⟩
    rw [hcount]
    exact bind_ok_iff.mpr ⟨(), m, room_ok_iff.mpr ⟨hroom, rfl⟩,
      bind_ok_iff.mpr ⟨parts, c', hparts, pure_ok_iff.mpr ⟨rfl, rfl⟩⟩⟩
  | chain _ ih =>
    intro ctx c c' us hw hnamed hwalk
    obtain ⟨parts, hparts, rfl, rfl⟩ := chain_of_walks ih hw
      (fun hstrict => Value.named_array.mp (hnamed hstrict)) hwalk
    exact bind_ok_iff.mpr ⟨parts, c', hparts, pure_ok_iff.mpr ⟨rfl, rfl⟩⟩
  | absent =>
    intro ctx c c' us hw hnamed hwalk
    obtain ⟨rfl, hr⟩ := Walks.single_iff.mp hwalk
    exact bind_ok_iff.mpr ⟨false, c', flag_ok_iff.mpr hr, pure_ok_iff.mpr ⟨rfl, rfl⟩⟩
  | present _ ih =>
    intro ctx c c' us hw hnamed hwalk
    obtain ⟨m, hr, hrest⟩ := Walks.fixed_iff.mp hwalk
    exact bind_ok_iff.mpr ⟨true, m, flag_ok_iff.mpr hr,
      bind_ok_iff.mpr ⟨_, c', ih hw hnamed hrest, pure_ok_iff.mpr ⟨rfl, rfl⟩⟩⟩
  | struct hnames _ ih =>
    intro ctx c c' us hw hnamed hwalk
    rw [layout_struct] at hwalk
    have hfields := traceFields_of_walks hnames ih hw
      (fun hstrict => Value.named_struct.mp (hnamed hstrict)) hwalk
    exact bind_ok_iff.mpr ⟨_, c', hfields, pure_ok_iff.mpr ⟨rfl, rfl⟩⟩
  | union _ hcode hs _ ihd ihs =>
    intro ctx c c' us hw hnamed hwalk
    rw [layout_union hcode hs] at hwalk
    obtain ⟨vs, ws, m, rfl, hfirst, hrest⟩ := hwalk.of_append
    have hdisc := ihd hw (fun hstrict => (Value.named_union.mp (hnamed hstrict)).1) hfirst
    exact trace_union_ok_iff.mpr ⟨_, vs, m, _, _, _, _, ws, hdisc, hcode, hs,
      Traces.within ihs hw (fun hstrict => (Value.named_union.mp (hnamed hstrict)).2) _ hrest,
      rfl, rfl⟩

end Shape

end NfsWire
