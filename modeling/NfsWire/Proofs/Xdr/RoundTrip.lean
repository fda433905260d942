import NfsWire.Proofs.Xdr.Walk
import NfsWire.Proofs.Xdr.Writing
import NfsWire.Rdma.Shape
import NfsWire.Rpc.Program
import NfsWire.Rpc.Shape

/-!
# Reading and writing undo each other

Without chunks a walk is a plain reading of the octets of all pieces (`Walks.none_iff`), and those
octets are what the writer gives (`encode_whole`). So the two round trips are one equivalence,
`decode_ok_iff`, used from either side:

* `encode_decode`: what was read is written back octet for octet, hence only the octets of a
  writer are accepted, and no two different runs of octets are read as the same value;
* `decode_encode`: what is written is read back, wherever it stands and whatever follows it.
-/

namespace NfsWire

/-! ## Octets between two offsets -/

/-- The octets of a message from one offset to another. -/
def Bytes.between (message : Bytes) (start stop : Nat) : Bytes :=
  (message.drop start).take (stop - start)

theorem Cursor.offset_at {message : Bytes} {start : Nat} (h : start ≤ message.length) :
    (Cursor.at message start).offset = start := Nat.min_eq_left h

/-- What a cursor that was set up at `start` has taken lies between there and where it stands. -/
theorem Cursor.between {message taken : Bytes} {start : Nat} {c : Cursor}
    (hstart : start ≤ message.length) (hrest : (Cursor.at message start).rest = taken ++ c.rest)
    (hoffset : c.offset = (Cursor.at message start).offset + taken.length) :
    start ≤ c.offset ∧ c.offset ≤ message.length ∧ message.between start c.offset = taken := by
  have hdrop : message.drop start = taken ++ c.rest := hrest
  have hlen : message.length - start = taken.length + c.rest.length := by
    rw [← List.length_drop, hdrop, List.length_append]
  rw [Cursor.offset_at hstart] at hoffset
  refine ⟨by omega, by omega, ?_⟩
  rw [Bytes.between, hdrop, hoffset, Nat.add_sub_cancel_left, List.take_left]

/-- A message can be read up to any of its parts. -/
theorem Cursor.reads_middle (pre data post : Bytes) :
    ∃ c, (Cursor.at (pre ++ data ++ post) pre.length).Reads data c ∧
      c.offset = pre.length + data.length := by
  have hrest : (pre ++ data ++ post).drop pre.length = data ++ post := by
    rw [List.append_assoc, List.drop_left]
  have hle : pre.length ≤ (pre ++ data ++ post).length := by
    rw [List.append_assoc, List.length_append]
    omega
  refine ⟨{ rest := post, offset := pre.length + data.length }, ⟨hrest, ?_, rfl, rfl⟩, rfl⟩
  rw [Cursor.offset_at hle]

/-- Without chunks there is none at any position. -/
theorem ReadContext.readAt?_eq_none {ctx : ReadContext} (h : ctx.chunks = none) :
    ctx.readAt? = fun _ => none := by
  funext position
  rw [ReadContext.readAt?, h]
  rfl

namespace Shape

variable {shape : Shape} {v : Value}

/-! ## Reading without chunks -/

/-- What is read conforms, and its octets were there. -/
theorem reads_of_decode {ctx : ReadContext} {c c' : Cursor} (hchunks : ctx.chunks = none)
    (hwrites : ctx.useWrites = false) (h : shape.decode ctx c = .ok v c') :
    shape.Conforms v ∧ c.Reads (whole (shape.layout v)) c' := by
  rw [decode_eq_trace] at h
  obtain ⟨⟨w, us⟩, htrace, rfl⟩ := Reader.map_ok_iff.mp h
  have hnone := ctx.readAt?_eq_none hchunks
  -- There is no chunk at any position, so none that lacks data.
  have hfull : ctx.FullReads us := fun u _ hu => by
    rw [hnone] at hu
    cases hu
  obtain ⟨hv, hwalk⟩ := trace_walks shape hwrites htrace hfull
  rw [hnone] at hwalk
  exact ⟨hv, (Walks.none_iff.mp hwalk).2⟩

/-- A conforming value is read wherever its octets are, in strict reading if all its codes have
names. -/
theorem Conforms.decode_of_named {ctx : ReadContext} {c c' : Cursor} (hv : shape.Conforms v)
    (hchunks : ctx.chunks = none) (hwrites : ctx.useWrites = false)
    (hnamed : ctx.strict = true → v.named = true) (h : c.Reads (whole (shape.layout v)) c') :
    shape.decode ctx c = .ok v c' := by
  -- Without chunks there is only one way to go over the pieces, in line.
  have hwalk : Walks ctx.readAt? c (shape.layout v) [] c' :=
    ctx.readAt?_eq_none hchunks ▸ Walks.none_iff.mpr ⟨rfl, h⟩
  rw [decode_eq_trace]
  exact Reader.map_ok_iff.mpr ⟨(v, []), hv.trace_of_walks hwrites hnamed hwalk, rfl⟩

theorem Conforms.decode_of_reads {c c' : Cursor} (hv : shape.Conforms v)
    (h : c.Reads (whole (shape.layout v)) c') : shape.decode {} c = .ok v c' :=
  hv.decode_of_named rfl rfl nofun h

end Shape

/-- What is read between two offsets is what is written there. -/
theorem encode_of_decode {shape : Shape} {v : Value} (hd : shape.distinctNames = true)
    {strict : Bool} {message : Bytes} {start : Nat} (hstart : start ≤ message.length) {c : Cursor}
    (h : shape.decode { strict } (Cursor.at message start) = .ok v c) :
    start ≤ c.offset ∧ c.offset ≤ message.length ∧
      encode v shape = .ok (message.between start c.offset) := by
  obtain ⟨hv, hreads⟩ := Shape.reads_of_decode rfl rfl h
  obtain ⟨hfrom, hto, hdata⟩ := Cursor.between hstart hreads.rest hreads.offset
  refine ⟨hfrom, hto, ?_⟩
  rw [hdata]
  exact encode_whole hv hd

/-! ## The shapes in use -/

/-- The shapes of all headers, and those of the arguments and results of all procedures. -/
def knownShapes : List Shape :=
  Rpc.message :: Rdma.body :: Rpc.authSysParms ::
    Rpc.Program.all.flatMap fun p => p.procedures.flatMap fun q => [q.args, q.results]

theorem knownShapes_distinctNames : ∀ shape ∈ knownShapes, shape.distinctNames = true := by
  decide +kernel

/-! ## Round trips -/

/-- **Writing undoes reading.** Whatever is read, in either mode, is written back as the octets
that were read, so different octets are never read as the same value. This covers all shapes in
which no structure repeats a name, and the shapes in use are among them. -/
theorem encode_decode :
    (∀ shape ∈ knownShapes, shape.distinctNames = true) ∧
      ∀ shape : Shape, shape.distinctNames = true →
        (∀ (strict : Bool) (message : Bytes) (start : Nat) (v : Value) (c : Cursor),
          start ≤ message.length →
          shape.decode { strict } (Cursor.at message start) = .ok v c →
            start ≤ c.offset ∧ c.offset ≤ message.length ∧
              encode v shape = .ok (message.between start c.offset)) ∧
        ∀ (strict strict' : Bool) (message message' : Bytes) (start start' : Nat) (v : Value)
            (c c' : Cursor), start ≤ message.length → start' ≤ message'.length →
          shape.decode { strict } (Cursor.at message start) = .ok v c →
          shape.decode { strict := strict' } (Cursor.at message' start') = .ok v c' →
            message.between start c.offset = message'.between start' c'.offset := by
  refine ⟨knownShapes_distinctNames, fun shape hd => ⟨?_, ?_⟩⟩
  · intro strict message start v c hstart h
    exact encode_of_decode hd hstart h
  · intro strict strict' message message' start start' v c c' hstart hstart' h h'
    obtain ⟨-, -, hwritten⟩ := encode_of_decode hd hstart h
    obtain ⟨-, -, hwritten'⟩ := encode_of_decode hd hstart' h'
    rw [hwritten] at hwritten'
    exact Except.ok.inj hwritten'

/-- A text and a flag, read behind one octet and in front of another. -/
theorem encode_decode_text_and_flag :
    encode (.struct [("name", .text [104, 105]), ("flag", .bool true)])
        (.struct [("name", Shape.anyText), ("flag", .bool)]) =
      .ok [0, 0, 0, 2, 104, 105, 0, 0, 0, 0, 0, 1] :=
  ((encode_decode.2 (.struct [("name", Shape.anyText), ("flag", .bool)]) (by decide)).1 false
    [255, 0, 0, 0, 2, 104, 105, 0, 0, 0, 0, 0, 1, 255] 1 _ { rest := [255], offset := 13 }
    (by decide) rfl).2.2

/-- **Reading undoes writing.** A conforming value is written in whole words, and read back at any
place of any message. -/
theorem decode_encode {shape : Shape} (hd : shape.distinctNames = true) {v : Value}
    (hv : shape.Conforms v) (pre post : Bytes) :
    ∃ data, encode v shape = .ok data ∧ 4 ∣ data.length ∧
      decode (pre ++ data ++ post) pre.length shape = .ok (v, pre.length + data.length) := by
  refine ⟨whole (shape.layout v), encode_whole hv hd, Shape.four_dvd_length_whole hv.aligned, ?_⟩
  obtain ⟨c, hreads, hoffset⟩ := Cursor.reads_middle pre (whole (shape.layout v)) post
  rw [decode, hv.decode_of_reads hreads]
  show Except.ok (v, c.offset) = _
  rw [hoffset]

/-- Two numbers, written behind one octet and at the end of the message. -/
theorem decode_encode_two_numbers :
    ∃ data, encode (.array [.int (-1), .int 7]) (Shape.arrayUpTo .int 2) = .ok data ∧
      4 ∣ data.length ∧ decode ([255] ++ data ++ []) 1 (Shape.arrayUpTo .int 2) =
        .ok (.array [.int (-1), .int 7], 1 + data.length) := by
  have hcount : (Extent.variable (some 2)).Admits 2 := by
    refine Extent.admits_variable.mpr ⟨by decide, fun m hm => ?_⟩
    cases hm
    decide
  have hitems : ∀ v ∈ [Value.int (-1), .int 7], Shape.int.Conforms v := by
    rintro v (_ | ⟨_, _ | ⟨_, ⟨⟩⟩⟩)
    · exact .int _
    · exact .int _
  exact decode_encode (by decide) (.array hcount hitems) [255] []

end NfsWire
