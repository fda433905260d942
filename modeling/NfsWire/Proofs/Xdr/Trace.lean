import NfsWire.Proofs.Xdr.Conform
import NfsWire.Xdr.Decode

/-!
# Which chunks a reader uses

The value that a reader gives does not tell which of its items came from chunks, nor how long the
message said they were. `Shape.trace` reads the same value with the same primitives and reports
along with it each chunk that was used, in the order of reading. Forgetting the report gives back
the reader, errors and cursors included: `decode_eq_trace`.
-/

namespace NfsWire

/-- A chunk from which an item was taken. -/
structure ChunkUse where
  /-- Where the octets of the item lie in the whole message. -/
  position : Nat
  /-- Octets of the item, as the message announces them. -/
  length : Nat
  chunk : Chunk
  /-- The list the chunk was found in. -/
  source : ChunkKind
  deriving DecidableEq, Repr

/-- The chunk has all octets of the item. -/
def ChunkUse.Full (u : ChunkUse) : Prop := ∃ data, u.chunk.data = some data ∧ u.length ≤ data.length

namespace Reader

variable {α β : Type}

/-- The chunk that an item of `n` octets is taken from, if it is taken from any. -/
def use? (ddp : Bool) (n : Nat) : Reader (Option ChunkUse) := fun ctx c =>
  let position := c.offset + c.spliced
  let use? := ctx.chunks.bind fun chunks =>
    match chunks.readAt? position with
    | some chunk => some { position, length := n, chunk, source := .read }
    | none =>
      if ddp ∧ ctx.useWrites then
        chunks.writes[c.writesUsed]?.map fun chunk =>
          { position, length := n, chunk, source := .write }
      else none
  .ok use? c

/-- An item with a report of the chunk it was taken from. -/
def tracedItem (wrap : Bytes → Value) (max : Option UInt32) (ddp : Bool) :
    Reader (Value × List ChunkUse) := do
  let n := (← length max).toNat
  let use ← use? ddp n
  match ← placed? wrap ddp n with
  | some v => return (v, use.toList)
  | none => return (wrap (← octets n), [])

end Reader

namespace Shape

open Reader

mutual

/-- Read a value of the shape and report the chunks used for it. -/
def trace : Shape → Reader (Value × List ChunkUse)
  | .octets (.variable max) ddp => tracedItem .octets max ddp
  | .text max ddp => tracedItem .text max ddp
  | .array elem extent => do
    let count ← match extent with
      | .fixed n => pure n
      | .variable max => Reader.length max
    room count.toNat elem.minSize
    let parts ← repeated elem.trace 0 count.toNat
    return (.array (parts.map (·.1)), parts.flatMap (·.2))
  | .chain elem => do
    let parts ← Reader.chain elem.trace
    return (.array (parts.map (·.1)), parts.flatMap (·.2))
  | .optional inner => do
    if ← flag .optionalFlag then
      let (v, uses) ← inner.trace
      return (.optional (some v), uses)
    else return (.optional none, [])
  | .struct fields => do
    let (record, uses) ← traceFields fields
    return (.struct record, uses)
  | .union disc arms fallback => do
    let start ← offset
    let (d, uses) ← disc.trace
    match d.armCode? with
    | none => failAt start (.mismatch .discriminant)
    | some code =>
      let ((arm, v), more) ← traceArm arms code (traceFallback fallback start code)
      return (.union d arm v, uses ++ more)
  | s => do return (← s.decode, [])

def traceFields : List (String × Shape) → Reader (Fields × List ChunkUse)
  | [] => return ([], [])
  | (name, s) :: rest => do
    let (v, uses) ← within (.name name) s.trace
    let (record, more) ← traceFields rest
    return ((name, v) :: record, uses ++ more)

def traceArm : List (Int × String × Shape) → (code : Int) →
    (otherwise : Reader ((String × Value) × List ChunkUse)) →
    Reader ((String × Value) × List ChunkUse)
  | [], _, otherwise => otherwise
  | (c, name, s) :: rest, code, otherwise =>
    if c = code then do
      let (v, uses) ← within (.name name) s.trace
      return ((name, v), uses)
    else traceArm rest code otherwise

def traceFallback : Option (String × Shape) → (start : Nat) → (code : Int) →
    Reader ((String × Value) × List ChunkUse)
  | none, start, code => failAt start (.noArm code)
  | some (name, s), _, _ => do
    let (v, uses) ← within (.name name) s.trace
    return ((name, v), uses)

end

end Shape

/-! ## Arrays and unions -/

/-- The number of elements of an array: the fixed one, or the one that stands in front. -/
def Reader.count : Extent → Reader UInt32
  | .fixed size => pure size
  | .variable max => length max

namespace Shape

open Reader

theorem trace_array (elem : Shape) (extent : Extent) :
    (Shape.array elem extent).trace = (do
      let n ← count extent
      room n.toNat elem.minSize
      let parts ← repeated elem.trace 0 n.toNat
      return (.array (parts.map (·.1)), parts.flatMap (·.2))) := by
  cases extent <;> rfl

/-- What is read is the arm that the code selects. -/
theorem traceArm_eq (arms : List (Int × String × Shape)) (fallback : Option (String × Shape))
    (start : Nat) (code : Int) :
    traceArm arms code (traceFallback fallback start code) =
      match arm? arms fallback code with
      | none => failAt start (.noArm code)
      | some (name, s) => (fun (v, uses) => ((name, v), uses)) <$> within (.name name) s.trace := by
  induction arms with
  | nil =>
    rw [traceArm, arm?_nil]
    cases fallback with
    | none => rfl
    | some f => simp [traceFallback]
  | cons a rest ih =>
    obtain ⟨c, name, s⟩ := a
    rw [traceArm, arm?_cons]
    by_cases hc : c = code
    · simp [hc]
    · rw [if_neg hc, if_neg hc]
      exact ih

theorem decodeArm_eq (arms : List (Int × String × Shape)) (fallback : Option (String × Shape))
    (start : Nat) (code : Int) :
    decodeArm arms code (decodeFallback fallback start code) =
      match arm? arms fallback code with
      | none => failAt start (.noArm code)
      | some (name, s) => (fun v => (name, v)) <$> within (.name name) s.decode := by
  induction arms with
  | nil =>
    rw [decodeArm, arm?_nil]
    cases fallback with
    | none => rfl
    | some f => simp [decodeFallback]
  | cons a rest ih =>
    obtain ⟨c, name, s⟩ := a
    rw [decodeArm, arm?_cons]
    by_cases hc : c = code
    · simp [hc]
    · rw [if_neg hc, if_neg hc]
      exact ih

end Shape

/-! ## Forgetting the report -/

namespace Reader

variable {α β : Type}

theorem within_map (f : α → β) (segment : Segment) (x : Reader α) :
    within segment (f <$> x) = f <$> within segment x := rfl

theorem repeated_map (f : α → β) (x : Reader α) (i count : Nat) :
    repeated (f <$> x) i count = List.map f <$> repeated x i count := by
  induction count generalizing i with
  | zero => simp [repeated]
  | succ n ih => simp [repeated, ih, within_map]

theorem announced_map (f : α → β) (x : Reader α) (fuel i : Nat) :
    announced (f <$> x) fuel i = List.map f <$> announced x fuel i := by
  induction fuel generalizing i with
  | zero => simp [announced]
  | succ n ih =>
    simp only [announced, ih, within_map, map_bind, bind_map_left]
    congr 1
    funext b
    cases b <;> simp

theorem chain_map (f : α → β) (x : Reader α) : chain (f <$> x) = List.map f <$> chain x := by
  funext ctx c
  unfold chain
  rw [announced_map]
  rfl

theorem item_eq_trace (wrap : Bytes → Value) (max : Option UInt32) (ddp : Bool) :
    item wrap max ddp = Prod.fst <$> tracedItem wrap max ddp := by
  unfold item tracedItem
  rw [map_bind]
  congr 1
  funext n
  -- Asking which chunk will be used has no effect, so it can be dropped once it is forgotten.
  have drop (x : Reader Value) : (use? ddp n.toNat >>= fun _ => x) = x := rfl
  rw [map_bind]
  refine (drop _).symm.trans ?_
  congr 1
  funext use
  dsimp only
  rw [map_bind]
  congr 1
  funext v
  cases v with
  | none => simp
  | some v => simp

end Reader

namespace Shape

open Reader

theorem decodeFields_eq_trace {fields : List (String × Shape)}
    (h : ∀ f ∈ fields, f.2.decode = Prod.fst <$> f.2.trace) :
    decodeFields fields = Prod.fst <$> traceFields fields := by
  induction fields with
  | nil => simp [decodeFields, traceFields]
  | cons f rest ih =>
    have hf : f.2.decode = Prod.fst <$> f.2.trace := h f List.mem_cons_self
    have hrest := ih fun g hg => h g (List.mem_cons_of_mem _ hg)
    simp [decodeFields, traceFields, hf, hrest, within_map]

theorem decodeArm_eq_trace {arms : List (Int × String × Shape)}
    {fallback : Option (String × Shape)}
    (harms : ∀ a ∈ arms, a.2.2.decode = Prod.fst <$> a.2.2.trace)
    (hfallback : ∀ f ∈ fallback, f.2.decode = Prod.fst <$> f.2.trace) (start : Nat) (code : Int) :
    decodeArm arms code (decodeFallback fallback start code) =
      Prod.fst <$> traceArm arms code (traceFallback fallback start code) := by
  rw [decodeArm_eq, traceArm_eq]
  cases ha : arm? arms fallback code with
  | none => rfl
  | some arm =>
    obtain ⟨name, s⟩ := arm
    have hs : s.decode = Prod.fst <$> s.trace :=
      of_arm? (motive := fun s => s.decode = Prod.fst <$> s.trace) harms hfallback ha
    simp [hs, within_map]

/-- **The trace reads what the reader reads.** -/
theorem decode_eq_trace (shape : Shape) : shape.decode = Prod.fst <$> shape.trace := by
  induction shape with
  | void | int | uint | hyper | uhyper | bool | enum => simp [trace]
  | octets extent ddp =>
    obtain size | max := extent
    · simp [trace]
    · rw [trace, decode, item_eq_trace]
  | text max ddp => rw [trace, decode, item_eq_trace]
  | array elem extent ih =>
    obtain size | max := extent <;>
      simp [trace, decode, ih, repeated_map]
  | chain elem ih => simp [trace, decode, ih, chain_map]
  | optional inner ih =>
    simp only [trace, decode, ih, map_bind]
    congr 1
    funext b
    cases b <;> simp
  | struct fields ih => simp [trace, decode, decodeFields_eq_trace ih]
  | union disc arms fallback ihd iha ihf =>
    simp only [trace, decode, ihd, map_bind, bind_map_left]
    congr 1
    funext start
    congr 1
    funext d
    cases hd : d.1.armCode? with
    | none => rfl
    | some code => simp [decodeArm_eq_trace iha ihf]

end Shape

end NfsWire
