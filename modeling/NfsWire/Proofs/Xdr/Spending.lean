import NfsWire.Proofs.Xdr.Placeholder

/-!
# Each chunk is used once

`Cursor.Spends` is what a reader does with the chunks between two cursors. Each use lies behind the
cursor at the start and not behind the one at the end, because the length word of its item was read
before it; so uses that follow one another lie at growing positions, and a read chunk, which is
found by its position, is not found twice. Write chunks are counted instead: what was used between
two cursors is what lies between their two counts in the list.

The invariant holds of one item (`spends_item`), and uses that follow one another can be joined
(`Cursor.Spends.append`); over a whole shape that is all there is to it (`spends_trace`).

Which items the uses belong to is said by `Spread`, which follows from `Shape.Alike`.
-/

namespace NfsWire

/-- The uses of chunks from one list. -/
def usesOf (source : ChunkKind) (us : List ChunkUse) : List ChunkUse :=
  us.filter (·.source = source)

/-- Octets that uses of read chunks put in. -/
def octetsOf (us : List ChunkUse) : Nat :=
  @List.sum Nat _ Zero.ofOfNat0 ((usesOf .read us).map fun u => Bytes.padded u.length)

theorem usesOf_append (source : ChunkKind) (us vs : List ChunkUse) :
    usesOf source (us ++ vs) = usesOf source us ++ usesOf source vs :=
  List.filter_append ..

/-! ## Between two cursors -/

/-- From `c` to `c'` these chunks of the map are used. -/
structure Cursor.Spends (m : ChunkMap) (useWrites : Bool) (c : Cursor) (us : List ChunkUse)
    (c' : Cursor) : Prop where
  forward : c.position ≤ c'.position
  between : ∀ u ∈ us, c.position < u.position ∧ u.position ≤ c'.position
  ordered : us.Pairwise (·.position < ·.position)
  source : ∀ u ∈ us, u.source = .read ∧ m.readAt? u.position = some u.chunk ∨
    u.source = .write ∧ useWrites = true
  spliced : c'.spliced = c.spliced + octetsOf us
  count : c'.writesUsed = c.writesUsed + (usesOf .write us).length
  handed : m.writes.take c'.writesUsed =
    m.writes.take c.writesUsed ++ (usesOf .write us).map (·.chunk)

namespace Cursor.Spends

variable {m : ChunkMap} {useWrites : Bool} {c d c' : Cursor} {us vs : List ChunkUse}

theorem of_reads {data : Bytes} (h : c.Reads data c') : c.Spends m useWrites [] c' where
  forward := by rw [h.position]; omega
  between := nofun
  ordered := .nil
  source := nofun
  spliced := h.spliced
  count := h.writesUsed
  handed := by rw [h.writesUsed]; exact (List.append_nil _).symm

theorem refl (m : ChunkMap) (useWrites : Bool) (c : Cursor) : c.Spends m useWrites [] c :=
  of_reads (reads_nil.mpr rfl)

theorem append (h : c.Spends m useWrites us d) (h' : d.Spends m useWrites vs c') :
    c.Spends m useWrites (us ++ vs) c' where
  forward := Nat.le_trans h.forward h'.forward
  between u hu := by
    have hd := h.forward
    have hd' := h'.forward
    rcases List.mem_append.mp hu with hu | hu
    · have := h.between u hu
      omega
    · have := h'.between u hu
      omega
  ordered := by
    refine List.pairwise_append.mpr ⟨h.ordered, h'.ordered, fun u hu v hv => ?_⟩
    exact Nat.lt_of_le_of_lt (h.between u hu).2 (h'.between v hv).1
  source u hu := (List.mem_append.mp hu).elim (h.source u) (h'.source u)
  spliced := by
    rw [h'.spliced, h.spliced, octetsOf, octetsOf, octetsOf, usesOf_append, List.map_append,
      List.sum_append_nat, Nat.add_assoc]
  count := by
    rw [h'.count, h.count, usesOf_append, List.length_append, Nat.add_assoc]
  handed := by
    rw [h'.handed, h.handed, usesOf_append, List.map_append, List.append_assoc]

/-- Behind a length word, a read chunk that belongs there. -/
theorem read {data : Bytes} {n : Nat} {chunk : Chunk} (h : c.Reads data d) (hpos : 0 < data.length)
    (hread : m.readAt? d.position = some chunk) :
    c.Spends m useWrites [⟨d.position, n, chunk, .read⟩] (d.splice n) := by
  have hd := h.position
  have hend := Cursor.position_splice d n
  constructor
  case forward => omega
  case between =>
    rw [List.forall_mem_singleton]
    show c.position < d.position ∧ d.position ≤ _
    omega
  case ordered => exact List.pairwise_singleton _ _
  case source => exact List.forall_mem_singleton.mpr (.inl ⟨rfl, hread⟩)
  case spliced => exact congrArg (· + Bytes.padded n) h.spliced
  case count => exact h.writesUsed
  case handed =>
    show m.writes.take d.writesUsed = _
    rw [h.writesUsed]
    exact (List.append_nil _).symm

/-- Behind a length word, the write chunk that is next. -/
theorem write {data : Bytes} {n : Nat} {chunk : Chunk} (h : c.Reads data d)
    (hpos : 0 < data.length) (hw : useWrites = true)
    (hwrite : m.writes[d.writesUsed]? = some chunk) :
    c.Spends m useWrites [⟨d.position, n, chunk, .write⟩] d.useWrite := by
  have hd := h.position
  have hend : d.useWrite.position = d.position := rfl
  constructor
  case forward => omega
  case between =>
    rw [List.forall_mem_singleton]
    show c.position < d.position ∧ d.position ≤ _
    omega
  case ordered => exact List.pairwise_singleton _ _
  case source => exact List.forall_mem_singleton.mpr (.inr ⟨rfl, hw⟩)
  case spliced => exact h.spliced
  case count => exact congrArg (· + 1) h.writesUsed
  case handed =>
    show m.writes.take (d.writesUsed + 1) = _
    rw [List.take_add_one, hwrite, h.writesUsed]
    rfl

/-- A use of a read chunk is at the position of the chunk. -/
theorem position_eq (h : c.Spends m useWrites us c') :
    ∀ u ∈ usesOf .read us, u.chunk ∈ m.reads ∧ u.chunk.ref.position.toNat = u.position := by
  intro u hu
  obtain ⟨hu, hsource⟩ := List.mem_filter.mp hu
  have hsource : u.source = .read := of_decide_eq_true hsource
  obtain ⟨-, hat⟩ | ⟨hwrite, -⟩ := h.source u hu
  · exact ⟨List.mem_of_find?_eq_some hat, by simpa using List.find?_some hat⟩
  · rw [hsource] at hwrite
    cases hwrite

/-- Positions only grow, so no read chunk is used again. -/
theorem nodup_reads (h : c.Spends m useWrites us c') :
    ((usesOf .read us).map (·.chunk)).Nodup := by
  rw [List.Nodup, List.pairwise_map]
  have hordered := h.ordered.sublist (List.filter_sublist (p := fun u => u.source = .read))
  refine hordered.imp_of_mem fun {u w} hu hw hlt hsame => ?_
  have hsame : u.chunk = w.chunk := hsame
  have hu := (h.position_eq u hu).2
  have hw := (h.position_eq w hw).2
  rw [hsame] at hu
  omega

theorem writes_eq_nil (h : c.Spends m false us c') : usesOf .write us = [] := by
  refine List.filter_eq_nil_iff.mpr fun u hu hwrite => ?_
  have hwrite : u.source = .write := of_decide_eq_true hwrite
  obtain ⟨hread, -⟩ | ⟨-, hfalse⟩ := h.source u hu
  · rw [hwrite] at hread
    cases hread
  · cases hfalse

end Cursor.Spends

/-! ## Along a shape -/

namespace Shape

open Reader

variable {m : ChunkMap} {useWrites : Bool} {ctx : ReadContext} {c c' : Cursor}

/-- Whatever the shape reads with this map, it spends the chunks that it reports. -/
def Spends (m : ChunkMap) (useWrites : Bool) (shape : Shape) : Prop :=
  ∀ {ctx : ReadContext} {c c' : Cursor} {v : Value} {us : List ChunkUse},
    ctx.chunks = some m → ctx.useWrites = useWrites → shape.trace ctx c = .ok (v, us) c' →
      c.Spends m useWrites us c'

theorem Spends.within {shape : Shape} (h : shape.Spends m useWrites) (hm : ctx.chunks = some m)
    (hw : ctx.useWrites = useWrites) {segment : Segment} {v : Value} {us : List ChunkUse}
    (hr : Reader.within segment shape.trace ctx c = .ok (v, us) c') :
    c.Spends m useWrites us c' :=
  @h { ctx with path := ctx.path ++ [segment] } c c' v us hm hw hr

/-- A leaf that is always in line uses nothing. -/
theorem spends_leaf {α : Type} {shape : Shape} {x : Reader α} (wrap : α → Value)
    (htrace : shape.trace = do return (← (do return wrap (← x) : Reader Value), []))
    (hx : ∀ {ctx : ReadContext} {c c' : Cursor} {a : α}, x ctx c = .ok a c' →
      ∃ data, c.Reads data c') : shape.Spends m useWrites := by
  intro ctx c c' v us hm hw h
  rw [htrace] at h
  obtain ⟨a, ha, -, rfl⟩ := leaf_ok_iff.mp h
  obtain ⟨data, hreads⟩ := hx ha
  exact .of_reads hreads

/-- Behind its length word an item uses the chunk that is found there, or none. -/
theorem spends_item {shape : Shape} {wrap : Bytes → Value} {max : Option UInt32} {ddp : Bool}
    (h : shape.IsItem wrap max ddp) : shape.Spends m useWrites := by
  intro ctx c c' v us hm hw hr
  rw [trace_item h] at hr
  obtain ⟨n, d, hlength, hr⟩ := bind_ok_iff.mp hr
  have hword := (length_ok_iff.mp hlength).2
  have hpos : 0 < (Bytes.word n).length := by
    rw [Bytes.length_word]
    omega
  cases hread : ctx.readAt? d.position with
  | some chunk =>
    rw [tracedData_read hread] at hr
    rw [ReadContext.readAt?, hm] at hread
    split at hr
    · cases hr
    · cases hr
      exact .read hword hpos hread
  | none =>
    cases hwrite : ctx.writeFor? ddp d with
    | some chunk =>
      rw [tracedData_write hread hwrite] at hr
      rw [ReadContext.writeFor?, hm] at hwrite
      split at hr
      · cases hr
      · cases hr
        split at hwrite
        next hddp => exact .write hword hpos (hw ▸ hddp.2) hwrite
        next => cases hwrite
    | none =>
      rw [tracedData_inline hread hwrite] at hr
      obtain ⟨data, d', hdata, hr⟩ := bind_ok_iff.mp hr
      obtain ⟨he, rfl⟩ := pure_ok_iff.mp hr
      cases he
      have hline := (octets_ok_iff.mp hdata).2
      exact .of_reads (Cursor.reads_append.mpr ⟨d, hword, hline⟩)

theorem spends_repeated {elem : Shape} (h : elem.Spends m useWrites) (hm : ctx.chunks = some m)
    (hw : ctx.useWrites = useWrites) {i n : Nat} {parts : List Traced}
    (hr : repeated elem.trace i n ctx c = .ok parts c') :
    c.Spends m useWrites (parts.flatMap (·.2)) c' := by
  induction n generalizing i c parts with
  | zero =>
    obtain ⟨rfl, rfl⟩ := pure_ok_iff.mp hr
    exact .refl m useWrites _
  | succ n ih =>
    obtain ⟨⟨v, us⟩, d, helem, hr⟩ := bind_ok_iff.mp hr
    obtain ⟨rest, d', hrest, hr⟩ := bind_ok_iff.mp hr
    obtain ⟨rfl, rfl⟩ := pure_ok_iff.mp hr
    rw [List.flatMap_cons]
    exact (h.within hm hw helem).append (ih hrest)

theorem spends_announced {elem : Shape} (h : elem.Spends m useWrites) (hm : ctx.chunks = some m)
    (hw : ctx.useWrites = useWrites) {fuel i : Nat} {parts : List Traced}
    (hr : announced elem.trace fuel i ctx c = .ok parts c') :
    c.Spends m useWrites (parts.flatMap (·.2)) c' := by
  induction fuel generalizing i c parts with
  | zero =>
    obtain ⟨rfl, rfl⟩ := pure_ok_iff.mp hr
    exact .refl m useWrites _
  | succ fuel ih =>
    obtain ⟨b, d, hflag, hr⟩ := bind_ok_iff.mp hr
    have hword : c.Spends m useWrites [] d := .of_reads (flag_ok_iff.mp hflag)
    cases b with
    | false =>
      obtain ⟨rfl, rfl⟩ := pure_ok_iff.mp hr
      exact hword
    | true =>
      obtain ⟨⟨v, us⟩, d', helem, hr⟩ := bind_ok_iff.mp hr
      obtain ⟨rest, d'', hrest, hr⟩ := bind_ok_iff.mp hr
      obtain ⟨rfl, rfl⟩ := pure_ok_iff.mp hr
      rw [List.flatMap_cons]
      exact hword.append ((h.within hm hw helem).append (ih hrest))

theorem spends_traceFields {fields : List (String × Shape)}
    (h : ∀ f ∈ fields, f.2.Spends m useWrites) (hm : ctx.chunks = some m)
    (hw : ctx.useWrites = useWrites) {record : Fields} {us : List ChunkUse}
    (hr : traceFields fields ctx c = .ok (record, us) c') : c.Spends m useWrites us c' := by
  induction fields generalizing c record us with
  | nil =>
    obtain ⟨he, rfl⟩ := pure_ok_iff.mp hr
    cases he
    exact .refl m useWrites _
  | cons f rest ih =>
    obtain ⟨⟨v, us⟩, d, hfield, hr⟩ := bind_ok_iff.mp hr
    obtain ⟨⟨record, vs⟩, d', hrest, hr⟩ := bind_ok_iff.mp hr
    obtain ⟨he, rfl⟩ := pure_ok_iff.mp hr
    cases he
    have hf : f.2.Spends m useWrites := h f List.mem_cons_self
    exact (hf.within hm hw hfield).append (ih (fun g hg => h g (List.mem_cons_of_mem _ hg)) hrest)

/-- **What is reported is spent, for every shape.** -/
theorem spends_trace (m : ChunkMap) (useWrites : Bool) (shape : Shape) :
    shape.Spends m useWrites := by
  induction shape with
  | void =>
    intro ctx c c' v us hm hw h
    cases h
    exact .refl m useWrites _
  | int => exact spends_leaf .int rfl fun h => ⟨_, int_ok_iff.mp h⟩
  | uint => exact spends_leaf .uint rfl fun h => ⟨_, uint_ok_iff.mp h⟩
  | hyper => exact spends_leaf .hyper rfl fun h => ⟨_, hyper_ok_iff.mp h⟩
  | uhyper => exact spends_leaf .uhyper rfl fun h => ⟨_, uhyper_ok_iff.mp h⟩
  | bool => exact spends_leaf .bool rfl fun h => ⟨_, flag_ok_iff.mp h⟩
  | enum table fixed =>
    intro ctx c c' v us hm hw h
    obtain ⟨_, d, henum, h⟩ := bind_ok_iff.mp h
    obtain ⟨he, rfl⟩ := pure_ok_iff.mp h
    cases he
    obtain ⟨_, -, hr⟩ := enum_ok_iff.mp henum
    exact .of_reads hr
  | octets extent ddp =>
    obtain size | max := extent
    · exact spends_leaf .octets rfl fun h => ⟨_, (octets_ok_iff.mp h).2⟩
    · exact spends_item (.octets max ddp)
  | text max ddp => exact spends_item (.text max ddp)
  | array elem extent ih =>
    intro ctx c c' v us hm hw h
    rw [trace_array] at h
    obtain ⟨n, d, hcount, hrest₁⟩ := bind_ok_iff.mp h
    obtain ⟨_, d', hroom, hrest₂⟩ := bind_ok_iff.mp hrest₁
    obtain ⟨-, rfl⟩ := room_ok_iff.mp hroom
    obtain ⟨parts, d'', hparts, hpair⟩ := bind_ok_iff.mp hrest₂
    obtain ⟨he, rfl⟩ := pure_ok_iff.mp hpair
    cases he
    have hword : c.Spends m useWrites [] d' := by
      obtain size | max := extent
      · obtain ⟨-, rfl⟩ := pure_ok_iff.mp hcount
        exact .refl m useWrites _
      · exact .of_reads (length_ok_iff.mp hcount).2
    exact hword.append (spends_repeated ih hm hw hparts)
  | chain elem ih =>
    intro ctx c c' v us hm hw h
    obtain ⟨parts, d, hparts, h⟩ := bind_ok_iff.mp h
    obtain ⟨he, rfl⟩ := pure_ok_iff.mp h
    cases he
    exact spends_announced ih hm hw hparts
  | optional inner ih =>
    intro ctx c c' v us hm hw h
    obtain ⟨b, d, hflag, h⟩ := bind_ok_iff.mp h
    have hword : c.Spends m useWrites [] d := .of_reads (flag_ok_iff.mp hflag)
    cases b with
    | false =>
      obtain ⟨he, rfl⟩ := pure_ok_iff.mp h
      cases he
      exact hword
    | true =>
      obtain ⟨⟨w, vs⟩, d', hinner, h⟩ := bind_ok_iff.mp h
      obtain ⟨he, rfl⟩ := pure_ok_iff.mp h
      cases he
      exact hword.append (ih hm hw hinner)
  | struct fields ih =>
    intro ctx c c' v us hm hw h
    obtain ⟨⟨record, vs⟩, d, hfields, h⟩ := bind_ok_iff.mp h
    obtain ⟨he, rfl⟩ := pure_ok_iff.mp h
    cases he
    exact spends_traceFields ih hm hw hfields
  | union disc arms fallback ihd iha ihf =>
    intro ctx c c' v us hm hw h
    obtain ⟨d, vs, k, code, name, s, x, ws, hdisc, -, harm, hx, -, rfl⟩ :=
      trace_union_ok_iff.mp h
    have hs : s.Spends m useWrites := of_arm? iha ihf harm
    exact (ihd hm hw hdisc).append (hs.within hm hw hx)

end Shape

/-! ## Items and uses -/

namespace Value

mutual

/-- The items of a value of the shape in wire order, each by whether it may be placed directly. -/
def slots : Value → Shape → List Bool
  | _, .octets (.variable _) ddp => [ddp]
  | _, .text _ ddp => [ddp]
  | .array items, .array elem _ => slotsItems items elem
  | .array items, .chain elem => slotsItems items elem
  | .optional (some v), .optional inner => v.slots inner
  | .struct record, .struct fields => slotsFields record fields
  | .union d _ v, .union _ arms fallback =>
    match d.armCode?.bind (Shape.arm? arms fallback) with
    | some (_, s) => v.slots s
    | none => []
  | _, _ => []

def slotsItems : List Value → Shape → List Bool
  | [], _ => []
  | v :: rest, elem => v.slots elem ++ slotsItems rest elem

def slotsFields : List (String × Value) → List (String × Shape) → List Bool
  | (_, v) :: record, (_, s) :: fields => v.slots s ++ slotsFields record fields
  | _, _ => []

end

theorem slots_item {shape : Shape} {wrap : Bytes → Value} {max : Option UInt32} {ddp : Bool}
    (h : shape.IsItem wrap max ddp) (v : Value) : v.slots shape = [ddp] := by
  cases h with
  | octets => rw [slots]
  | text => rw [slots]

theorem slotsItems_eq (items : List Value) (elem : Shape) :
    slotsItems items elem = items.flatMap (·.slots elem) := by
  induction items with
  | nil => rfl
  | cons v rest ih => rw [slotsItems, ih, List.flatMap_cons]

theorem slotsFields_eq (record : Fields) (fields : List (String × Shape)) :
    slotsFields record fields = (record.zip fields).flatMap fun p => p.1.2.slots p.2.2 := by
  induction record generalizing fields with
  | nil => rfl
  | cons r record ih =>
    cases fields with
    | nil => rfl
    | cons f fields => rw [slotsFields, ih, List.zip_cons_cons, List.flatMap_cons]

end Value

/-- Each item has at most one of the uses, in their order, and a write chunk only if it may be
placed directly. -/
inductive Spread : (slots : List Bool) → (us : List ChunkUse) → Prop where
  | nil : Spread [] []
  | inline {slots : List Bool} {us : List ChunkUse} (ddp : Bool) :
      Spread slots us → Spread (ddp :: slots) us
  | taken {slots : List Bool} {us : List ChunkUse} {ddp : Bool} {u : ChunkUse} :
      (u.source = .write → ddp = true) → Spread slots us → Spread (ddp :: slots) (u :: us)

namespace Spread

theorem none (slots : List Bool) : Spread slots [] := by
  induction slots with
  | nil => exact .nil
  | cons ddp slots ih => exact .inline ddp ih

theorem append {slots slots' : List Bool} {us us' : List ChunkUse} (h : Spread slots us)
    (h' : Spread slots' us') : Spread (slots ++ slots') (us ++ us') := by
  induction h with
  | nil => exact h'
  | inline ddp _ ih => exact .inline ddp ih
  | taken hddp _ ih => exact .taken hddp ih

theorem flatMap {α : Type} {f : α → List Bool} {g : α → List ChunkUse} {xs : List α}
    (h : ∀ x ∈ xs, Spread (f x) (g x)) : Spread (xs.flatMap f) (xs.flatMap g) := by
  induction xs with
  | nil => exact .nil
  | cons x xs ih =>
    have hx := h x List.mem_cons_self
    rw [List.flatMap_cons, List.flatMap_cons]
    exact hx.append (ih fun y hy => h y (List.mem_cons_of_mem _ hy))

/-- No more write chunks than items that may be placed directly. -/
theorem length_writes_le {slots : List Bool} {us : List ChunkUse} (h : Spread slots us) :
    (usesOf .write us).length ≤ slots.count true := by
  induction h with
  | nil => exact Nat.le_refl _
  | inline ddp _ ih => exact Nat.le_trans ih (List.count_le_count_cons ..)
  | @taken slots us ddp u hddp _ ih =>
    by_cases hw : u.source = .write
    · rw [usesOf, List.filter_cons_of_pos (by simpa using hw), hddp hw, List.count_cons_self]
      exact Nat.succ_le_succ ih
    · rw [usesOf, List.filter_cons_of_neg (by simpa using hw)]
      exact Nat.le_trans ih (List.count_le_count_cons ..)

end Spread

/-- **The uses are spread over the items of the value.** -/
theorem Shape.Alike.spread {m m' : ChunkMap} {shape : Shape} {t t' : Traced}
    (h : shape.Alike m m' t t') : Spread (t.1.slots shape) t.2 := by
  induction h with
  | same => exact .none _
  | taken hshape _ htwin _ _ =>
    rw [Value.slots_item hshape]
    cases htwin with
    | read => exact .taken nofun .nil
    | write hddp => exact .taken (fun _ => hddp) .nil
  | @array _ _ parts _ _ ih | @chain _ parts _ ih =>
    rw [Value.slots, Value.slotsItems_eq, List.flatMap_map]
    exact .flatMap ih
  | present _ ih =>
    rw [Value.slots]
    exact ih
  | @struct parts _ ih =>
    rw [Value.slots, Value.slotsFields_eq, List.zip_map', List.flatMap_map]
    exact .flatMap ih
  | union _ hcode harm _ ih =>
    rw [Value.slots, hcode, Option.bind_some, harm]
    exact ih

/-- **Each chunk is used once, and each that lacks its data is reported.** After a successful
reading there is one report of the chunks that were used, which agrees with the counts of the
cursor.

* Uses lie at growing positions. Read chunks are used where they belong, and none twice.
* The write chunks used are the first of their list, in order. No item has more than one, only
  items that may be placed directly have any, and nothing has if they are not enabled.
* What is missing of the value are the references of the chunks used without data, in their order,
  and if no structure repeats a name, the value can be written if and only if nothing is missing. -/
theorem chunks_spent_once {shape : Shape} {ctx : ReadContext} {m : ChunkMap} {message : Bytes}
    {start : Nat} {v : Value} {c : Cursor} (hm : ctx.chunks = some m)
    (h : shape.decode ctx (Cursor.at message start) = .ok v c) :
    ∃ us, shape.trace ctx (Cursor.at message start) = .ok (v, us) c ∧
      (c.spliced = octetsOf us ∧ us.Pairwise (·.position < ·.position) ∧
        (∀ u ∈ usesOf .read us, u.chunk ∈ m.reads ∧ u.chunk.ref.position.toNat = u.position) ∧
        ((usesOf .read us).map (·.chunk)).Nodup) ∧
      (c.writesUsed = (usesOf .write us).length ∧
        (usesOf .write us).map (·.chunk) = m.writes.take c.writesUsed ∧
        Spread (v.slots shape) us ∧ c.writesUsed ≤ (v.slots shape).count true ∧
        (ctx.useWrites = false → c.writesUsed = 0)) ∧
      v.missing = lacking us ∧
      (shape.distinctNames = true → ((∃ data, encode v shape = .ok data) ↔ v.missing = [])) := by
  rw [Shape.decode_eq_trace] at h
  obtain ⟨⟨v, us⟩, htrace, rfl⟩ := Reader.map_ok_iff.mp h
  have hspends := shape.spends_trace m ctx.useWrites hm rfl htrace
  have halike : shape.Alike m m (v, us) (v, us) := Shape.alike_self hm htrace
  have hcount : c.writesUsed = (usesOf .write us).length := hspends.count.trans (Nat.zero_add _)
  have hspread := halike.spread
  refine ⟨us, htrace, ⟨hspends.spliced.trans (Nat.zero_add _), hspends.ordered,
    hspends.position_eq, hspends.nodup_reads⟩, ⟨hcount, ?_, hspread, ?_, ?_⟩, halike.missing,
    halike.encode_iff⟩
  · exact hspends.handed.symm
  · rw [hcount]
    exact hspread.length_writes_le
  · intro hw
    rw [hw] at hspends
    rw [hcount, hspends.writes_eq_nil]
    rfl

/-- Data in a read chunk that the capture lacks, and behind it data in a write chunk. -/
theorem chunks_spent_once_read_and_write :
    let shape := Shape.struct [("name", Shape.anyText), ("data", Shape.anyOctets.placeable)]
    let name : ChunkRef := { kind := .read, index := 0, position := 4, length := 2, handles := [] }
    let data : ChunkRef := { kind := .write, index := 0, position := 0, length := 8, handles := [] }
    let m : ChunkMap := { reads := [{ ref := name, data := none }],
                          writes := [{ ref := data, data := some [1, 2, 3, 4] }] }
    let v : Value := .struct [("name", .unresolved name), ("data", .octets [1, 2, 3])]
    ∃ us, (usesOf .write us).map (·.chunk) = m.writes ∧
      (usesOf .read us).map (·.position) = [4] ∧ lacking us = [name] ∧
      ¬ ∃ octets, encode v shape = .ok octets := by
  intro shape name data m v
  have hread : shape.decode { chunks := some m, useWrites := true }
      (Cursor.at [0, 0, 0, 2, 0, 0, 0, 3] 0) =
        .ok v { rest := [], offset := 8, spliced := 4, writesUsed := 1 } := rfl
  obtain ⟨us, htrace, -, ⟨-, hwrites, -⟩, hmissing, hencode⟩ := chunks_spent_once rfl hread
  refine ⟨us, hwrites, ?_, hmissing.symm, fun hw => ?_⟩
  · cases htrace
    rfl
  · cases (hencode (by decide)).mp hw

end NfsWire
