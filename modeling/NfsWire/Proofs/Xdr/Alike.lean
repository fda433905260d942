import NfsWire.Proofs.Xdr.Taken
import NfsWire.Proofs.Xdr.Unaided

/-!
# What chunks hold does not steer the reading

Two chunk maps that list the same chunks may differ in what the capture has of them. A message read
with the one and with the other is read in step: the cursors never part, both runs stop with the
same error or neither does, and the values differ only where an item was taken from a chunk.

* `Reader.InStep` compares a reader under the one map with a reader under the other. It passes to
  what is put together from such readers, and a reader that does not look at the chunks is in step
  with itself.
* `Shape.Alike` says which results are alike. It follows the shape down to the items, where each
  side holds what its own chunk gives.
* The two meet at an item (`inStep_tracedData`): chunks are looked for by position and by number,
  and refused by the length in their references. The data is asked for last, and only cut.
-/

namespace NfsWire

/-- The maps list the same chunks. They may differ in what the capture has of them. -/
structure ChunkMap.SameRefs (m m' : ChunkMap) : Prop where
  reads : m.reads.map (·.ref) = m'.reads.map (·.ref)
  writes : m.writes.map (·.ref) = m'.writes.map (·.ref)

namespace ChunkMap

variable {m m' : ChunkMap}

theorem readAt?_ref (m : ChunkMap) (position : Nat) :
    (m.readAt? position).map (·.ref) =
      (m.reads.map (·.ref)).find? (·.position.toNat == position) := by
  rw [readAt?, List.find?_map]
  rfl

/-- A chunk found in the one list, and the chunk found in the other. -/
theorem twin_of_map_ref {o o' : Option Chunk} (h : o.map (·.ref) = o'.map (·.ref)) :
    (o = none ∧ o' = none) ∨
      ∃ chunk chunk', o = some chunk ∧ o' = some chunk' ∧ chunk.ref = chunk'.ref := by
  cases o with
  | none => exact .inl ⟨rfl, Option.map_eq_none_iff.mp h.symm⟩
  | some chunk =>
    obtain ⟨chunk', ho', href⟩ := Option.map_eq_some_iff.mp h.symm
    exact .inr ⟨chunk, chunk', rfl, ho', href.symm⟩

theorem SameRefs.readAt? (h : m.SameRefs m') (position : Nat) :
    (m.readAt? position).map (·.ref) = (m'.readAt? position).map (·.ref) := by
  rw [readAt?_ref, readAt?_ref, h.reads]

theorem SameRefs.writes_getElem? (h : m.SameRefs m') (i : Nat) :
    (m.writes[i]?).map (·.ref) = (m'.writes[i]?).map (·.ref) := by
  rw [← List.getElem?_map, ← List.getElem?_map, h.writes]

end ChunkMap

/-! ## Results that are alike -/

/-- For an item of `length` octets at `position` both maps give the chunk that stands in the same
place of the same list. Only an item that may be placed directly has a write chunk. -/
inductive ChunkMap.Twin (m m' : ChunkMap) (ddp : Bool) : ChunkUse → ChunkUse → Prop where
  | read {position length : Nat} {chunk chunk' : Chunk} :
      m.readAt? position = some chunk → m'.readAt? position = some chunk' →
      chunk.ref = chunk'.ref →
      Twin m m' ddp ⟨position, length, chunk, .read⟩ ⟨position, length, chunk', .read⟩
  | write {position length i : Nat} {chunk chunk' : Chunk} :
      ddp = true → m.writes[i]? = some chunk → m'.writes[i]? = some chunk' →
      chunk.ref = chunk'.ref →
      Twin m m' ddp ⟨position, length, chunk, .write⟩ ⟨position, length, chunk', .write⟩

/-- A value and the chunks used for it, in the order of reading. -/
abbrev Traced := Value × List ChunkUse

namespace Shape

/-- The same reading with two chunk maps: the values are the same, but for items from chunks. There
either side has what its own chunk gives, of the length that the message announces to both. -/
inductive Alike (m m' : ChunkMap) : Shape → Traced → Traced → Prop where
  /-- Read in line. -/
  | same {shape : Shape} {v : Value} : shape.Conforms v → Alike m m' shape (v, []) (v, [])
  /-- Taken from a chunk. -/
  | taken {shape : Shape} {wrap : Bytes → Value} {max : Option UInt32} {ddp : Bool}
      {u u' : ChunkUse} {v v' : Value} :
      shape.IsItem wrap max ddp → (Extent.variable max).Admits u.length → m.Twin m' ddp u u' →
      u.Gives wrap v → u'.Gives wrap v' → Alike m m' shape (v, [u]) (v', [u'])
  | array {elem : Shape} {extent : Extent} {parts : List (Traced × Traced)} :
      extent.Admits parts.length → (∀ p ∈ parts, Alike m m' elem p.1 p.2) →
      Alike m m' (.array elem extent) (.array (parts.map (·.1.1)), parts.flatMap (·.1.2))
        (.array (parts.map (·.2.1)), parts.flatMap (·.2.2))
  | chain {elem : Shape} {parts : List (Traced × Traced)} :
      (∀ p ∈ parts, Alike m m' elem p.1 p.2) →
      Alike m m' (.chain elem) (.array (parts.map (·.1.1)), parts.flatMap (·.1.2))
        (.array (parts.map (·.2.1)), parts.flatMap (·.2.2))
  | present {inner : Shape} {v v' : Value} {us us' : List ChunkUse} :
      Alike m m' inner (v, us) (v', us') →
      Alike m m' (.optional inner) (.optional (some v), us) (.optional (some v'), us')
  /-- Each field with what either side has of it. -/
  | struct {parts : List ((String × Shape) × Traced × Traced)} :
      (∀ p ∈ parts, Alike m m' p.1.2 p.2.1 p.2.2) →
      Alike m m' (.struct (parts.map (·.1)))
        (.struct (parts.map fun p => (p.1.1, p.2.1.1)), parts.flatMap (·.2.1.2))
        (.struct (parts.map fun p => (p.1.1, p.2.2.1)), parts.flatMap (·.2.2.2))
  /-- A discriminant is in line, so both sides have the same arm. -/
  | union {disc s : Shape} {arms : List (Int × String × Shape)}
      {fallback : Option (String × Shape)} {d v v' : Value} {us us' : List ChunkUse}
      {arm : String} {code : Int} :
      disc.Conforms d → d.armCode? = some code → arm? arms fallback code = some (arm, s) →
      Alike m m' s (v, us) (v', us') →
      Alike m m' (.union disc arms fallback) (.union d arm v, us) (.union d arm v', us')

/-- What selects an arm was read in line, and is the same on both sides. -/
theorem Alike.armCode {m m' : ChunkMap} {shape : Shape} {t t' : Traced}
    (h : shape.Alike m m' t t') :
    t.1.armCode? = t'.1.armCode? ∧
      ∀ code, t.1.armCode? = some code → t' = t ∧ t.2 = [] ∧ shape.Conforms t.1 := by
  -- What an item holds selects no arm, and what is put together from parts does not either.
  have hitem {shape : Shape} {wrap : Bytes → Value} {max : Option UInt32} {ddp : Bool}
      {u : ChunkUse} {v : Value} (hshape : shape.IsItem wrap max ddp) (hv : u.Gives wrap v) :
      v.armCode? = none := by
    cases hdata : u.chunk.data with
    | none => rw [hv.missing hdata]; rfl
    | some data =>
      rw [hv.present data hdata]
      cases hshape with
      | octets => rfl
      | text => rfl
  cases h with
  | same hv => exact ⟨rfl, fun code _ => ⟨rfl, rfl, hv⟩⟩
  | taken hshape hn htwin hv hv' =>
    have hnone := hitem hshape hv
    exact ⟨hnone.trans (hitem hshape hv').symm, fun code hcode => by simp [hnone] at hcode⟩
  | array | chain | present | struct | union => exact ⟨rfl, nofun⟩

end Shape

/-! ## Readers in step -/

namespace Reader

variable {α β γ δ : Type} {R : α → β → Prop} {S : γ → δ → Prop} {m m' : ChunkMap}

/-- Two runs end at the same place, with the same error or with related results. -/
inductive Agree (R : α → β → Prop) :
    EStateM.Result DecodeError Cursor α → EStateM.Result DecodeError Cursor β → Prop where
  | ok {a : α} {b : β} (c : Cursor) : R a b → Agree R (.ok a c) (.ok b c)
  | error (e : DecodeError) (c : Cursor) : Agree R (.error e c) (.error e c)

/-- Wherever they start, the reader with the one map and the reader with the other agree. -/
def InStep (m m' : ChunkMap) (R : α → β → Prop) (x : Reader α) (y : Reader β) : Prop :=
  ∀ (ctx : ReadContext) (c : Cursor),
    Agree R (x { ctx with chunks := some m } c) (y { ctx with chunks := some m' } c)

theorem InStep.pure {a : α} {b : β} (h : R a b) :
    InStep m m' R (Pure.pure a) (Pure.pure b) := fun _ c => .ok c h

theorem InStep.bind {x : Reader α} {y : Reader β} {f : α → Reader γ} {g : β → Reader δ}
    (h : InStep m m' R x y) (hf : ∀ a b, R a b → InStep m m' S (f a) (g b)) :
    InStep m m' S (x >>= f) (y >>= g) := by
  intro ctx c
  show Agree S (EStateM.bind (x _) (fun a => f a _) c) (EStateM.bind (y _) (fun b => g b _) c)
  have hxy := h ctx c
  unfold EStateM.bind
  generalize x { ctx with chunks := some m } c = r, y { ctx with chunks := some m' } c = r' at hxy
  cases hxy with
  | ok c' hR => exact hf _ _ hR ctx c'
  | error e c' => exact .error e c'

theorem InStep.map {x : Reader α} {y : Reader β} {f : α → γ} {g : β → δ}
    (h : InStep m m' R x y) (hf : ∀ a b, R a b → S (f a) (g b)) :
    InStep m m' S (f <$> x) (g <$> y) := by
  rw [← bind_pure_comp, ← bind_pure_comp]
  exact h.bind fun a b hab => .pure (hf a b hab)

theorem InStep.within {x : Reader α} {y : Reader β} (h : InStep m m' R x y) (segment : Segment) :
    InStep m m' R (within segment x) (within segment y) :=
  fun ctx c => h { ctx with path := ctx.path ++ [segment] } c

/-- What is known of every result of a reader is known of the result of both runs. -/
theorem Unaided.inStep {x : Reader α} (h : x.Unaided) {P : α → Prop}
    (hP : ∀ {ctx : ReadContext} {c c' : Cursor} {a : α}, x ctx c = .ok a c' → P a) :
    InStep m m' (fun a b => b = a ∧ P a) x x := by
  intro ctx c
  rw [h ctx (some m), h ctx (some m')]
  cases hx : x ctx c with
  | ok a c' => exact .ok c' ⟨rfl, hP hx⟩
  | error e c' => exact .error e c'

/-! ## Sequences -/

/-- The two lists are the sides of a list of related pairs. -/
def Matched (R : α → β → Prop) (as : List α) (bs : List β) : Prop :=
  ∃ pairs : List (α × β), as = pairs.map (·.1) ∧ bs = pairs.map (·.2) ∧ ∀ p ∈ pairs, R p.1 p.2

theorem Matched.nil : Matched R [] [] := ⟨[], rfl, rfl, nofun⟩

theorem Matched.cons {a : α} {b : β} {as : List α} {bs : List β} (h : R a b)
    (hs : Matched R as bs) : Matched R (a :: as) (b :: bs) := by
  obtain ⟨pairs, rfl, rfl, hpairs⟩ := hs
  exact ⟨(a, b) :: pairs, rfl, rfl, List.forall_mem_cons.mpr ⟨h, hpairs⟩⟩

theorem InStep.repeated {x : Reader α} {y : Reader β} (h : InStep m m' R x y) (i count : Nat) :
    InStep m m' (fun as bs => as.length = count ∧ Matched R as bs) (repeated x i count)
      (repeated y i count) := by
  induction count generalizing i with
  | zero => exact .pure ⟨rfl, .nil⟩
  | succ count ih =>
    refine (h.within _).bind fun a b hab => (ih (i + 1)).bind fun as bs has => .pure ?_
    exact ⟨congrArg (· + 1) has.1, has.2.cons hab⟩

theorem InStep.announced {x : Reader α} {y : Reader β} (h : InStep m m' R x y) (fuel i : Nat) :
    InStep m m' (Matched R) (announced x fuel i) (announced y fuel i) := by
  induction fuel generalizing i with
  | zero => exact .pure .nil
  | succ fuel ih =>
    refine ((unaided_flag _).inStep fun _ => trivial).bind ?_
    rintro _ more ⟨rfl, -⟩
    cases more with
    | false => exact .pure .nil
    | true =>
      exact (h.within _).bind fun a b hab => (ih (i + 1)).bind fun as bs has => .pure (has.cons hab)

theorem InStep.chain {x : Reader α} {y : Reader β} (h : InStep m m' R x y) :
    InStep m m' (Matched R) (chain x) (chain y) := fun ctx c => h.announced _ 0 ctx c

/-! ## Items -/

/-- The data of an item that is in line. -/
theorem inStep_inline {shape : Shape} {wrap : Bytes → Value} {max : Option UInt32} {ddp : Bool}
    (h : shape.IsItem wrap max ddp) {n : Nat} (hn : (Extent.variable max).Admits n) :
    InStep m m' (shape.Alike m m') (do return (wrap (← octets n), []) : Reader Traced)
      (do return (wrap (← octets n), []) : Reader Traced) := by
  refine ((unaided_octets n).inStep fun h => (octets_ok_iff.mp h).1).bind ?_
  rintro data _ ⟨rfl, hlen⟩
  exact .pure (.same (h.conforms (hlen.symm ▸ hn)))

/-- **An item of a given length is taken from the same place with both maps.** -/
theorem inStep_tracedData {shape : Shape} {wrap : Bytes → Value} {max : Option UInt32} {ddp : Bool}
    (hrefs : m.SameRefs m') (h : shape.IsItem wrap max ddp) {n : Nat}
    (hn : (Extent.variable max).Admits n) :
    InStep m m' (shape.Alike m m') (tracedData wrap ddp n) (tracedData wrap ddp n) := by
  intro ctx c
  rcases ChunkMap.twin_of_map_ref (hrefs.readAt? c.position) with
    ⟨hnone, hnone'⟩ | ⟨chunk, chunk', hread, hread', href⟩
  · have hread {k : ChunkMap} (h : k.readAt? c.position = none) :
        ({ ctx with chunks := some k } : ReadContext).readAt? c.position = none := h
    by_cases hddp : ddp ∧ ctx.useWrites
    · have hnext (k : ChunkMap) : ({ ctx with chunks := some k } : ReadContext).writeFor? ddp c =
          k.writes[c.writesUsed]? := if_pos hddp
      rcases ChunkMap.twin_of_map_ref (hrefs.writes_getElem? c.writesUsed) with
        ⟨hnext₀, hnext₀'⟩ | ⟨chunk, chunk', hwrite, hwrite', href⟩
      · rw [tracedData_inline (hread hnone) ((hnext m).trans hnext₀),
          tracedData_inline (hread hnone') ((hnext m').trans hnext₀')]
        exact inStep_inline h hn ctx c
      · rw [tracedData_write (hread hnone) ((hnext m).trans hwrite),
          tracedData_write (hread hnone') ((hnext m').trans hwrite'), ← href]
        split
        · exact .error _ _
        · exact .ok _ (.taken h hn (.write hddp.1 hwrite hwrite' href)
            (ChunkUse.gives_chunkValue _ _) (ChunkUse.gives_chunkValue _ _))
    · have hnext (k : ChunkMap) :
          ({ ctx with chunks := some k } : ReadContext).writeFor? ddp c = none := if_neg hddp
      rw [tracedData_inline (hread hnone) (hnext m), tracedData_inline (hread hnone') (hnext m')]
      exact inStep_inline h hn ctx c
  · have hfound {k : ChunkMap} {chunk : Chunk} (h : k.readAt? c.position = some chunk) :
        ({ ctx with chunks := some k } : ReadContext).readAt? c.position = some chunk := h
    rw [tracedData_read (hfound hread), tracedData_read (hfound hread'), ← href]
    split
    · exact .error _ _
    · exact .ok _ (.taken h hn (.read hread hread' href)
        (ChunkUse.gives_chunkValue _ _) (ChunkUse.gives_chunkValue _ _))

theorem inStep_item {shape : Shape} {wrap : Bytes → Value} {max : Option UInt32} {ddp : Bool}
    (hrefs : m.SameRefs m') (h : shape.IsItem wrap max ddp) :
    InStep m m' (shape.Alike m m') shape.trace shape.trace := by
  rw [trace_item h]
  refine ((unaided_length max).inStep fun h => (length_ok_iff.mp h).1).bind ?_
  rintro n _ ⟨rfl, hn⟩
  exact inStep_tracedData hrefs h hn

end Reader

/-! ## All shapes -/

namespace Shape

open Reader

variable {m m' : ChunkMap}

/-- With the two maps, the shape is read in step. -/
def InStep (m m' : ChunkMap) (shape : Shape) : Prop :=
  Reader.InStep m m' (shape.Alike m m') shape.trace shape.trace

/-- A leaf that is always in line. -/
theorem inStep_leaf {α : Type} {shape : Shape} {x : Reader α} (hx : x.Unaided) (wrap : α → Value)
    (htrace : shape.trace = do return (← (do return wrap (← x) : Reader Value), []))
    (hv : ∀ {ctx : ReadContext} {c c' : Cursor} {a : α}, x ctx c = .ok a c' →
      shape.Conforms (wrap a)) : shape.InStep m m' := by
  unfold Shape.InStep
  rw [htrace]
  refine Reader.InStep.bind ((hx.inStep hv).map (S := fun v w => w = v ∧ shape.Conforms v) ?_) ?_
  · rintro a _ ⟨rfl, ha⟩
    exact ⟨rfl, ha⟩
  · rintro v _ ⟨rfl, hv⟩
    exact .pure (.same hv)

/-- Fields that were read one by one, on both sides. -/
def AlikeFields (m m' : ChunkMap) (fields : List (String × Shape))
    (t t' : Fields × List ChunkUse) : Prop :=
  ∃ parts : List ((String × Shape) × Traced × Traced),
    fields = parts.map (·.1) ∧
    t = (parts.map fun p => (p.1.1, p.2.1.1), parts.flatMap (·.2.1.2)) ∧
    t' = (parts.map fun p => (p.1.1, p.2.2.1), parts.flatMap (·.2.2.2)) ∧
    ∀ p ∈ parts, p.1.2.Alike m m' p.2.1 p.2.2

theorem inStep_traceFields {fields : List (String × Shape)}
    (h : ∀ f ∈ fields, f.2.InStep m m') :
    Reader.InStep m m' (AlikeFields m m' fields) (traceFields fields) (traceFields fields) := by
  induction fields with
  | nil => exact .pure ⟨[], rfl, rfl, rfl, nofun⟩
  | cons f rest ih =>
    have hf : f.2.InStep m m' := h f List.mem_cons_self
    have hrest := ih fun g hg => h g (List.mem_cons_of_mem _ hg)
    refine (Reader.InStep.within hf _).bind fun t t' ht => hrest.bind ?_
    rintro _ _ ⟨parts, rfl, rfl, rfl, hparts⟩
    exact .pure ⟨(f, t, t') :: parts, rfl, rfl, rfl, List.forall_mem_cons.mpr ⟨ht, hparts⟩⟩

theorem admits_of_count {extent : Extent} {n : UInt32} {ctx : ReadContext} {c c' : Cursor}
    (h : count extent ctx c = .ok n c') : extent.Admits n.toNat := by
  obtain size | max := extent
  · obtain ⟨rfl, -⟩ := pure_ok_iff.mp h
    exact Extent.admits_fixed.mpr rfl
  · exact (length_ok_iff.mp h).1

theorem inStep_array {elem : Shape} (extent : Extent) (h : elem.InStep m m') :
    (Shape.array elem extent).InStep m m' := by
  unfold Shape.InStep
  rw [trace_array]
  refine ((unaided_count extent).inStep admits_of_count).bind ?_
  rintro _ n ⟨rfl, hn⟩
  refine ((unaided_room _ _).inStep fun _ => trivial).bind fun _ _ _ =>
    (h.repeated 0 n.toNat).bind ?_
  rintro _ _ ⟨hlen, parts, rfl, rfl, hparts⟩
  rw [List.length_map] at hlen
  simp only [List.map_map, List.flatMap_map]
  exact .pure (.array (hlen.symm ▸ hn) hparts)

theorem inStep_chain {elem : Shape} (h : elem.InStep m m') : (Shape.chain elem).InStep m m' := by
  refine (Reader.InStep.chain h).bind ?_
  rintro _ _ ⟨parts, rfl, rfl, hparts⟩
  simp only [List.map_map, List.flatMap_map]
  exact .pure (.chain hparts)

theorem inStep_optional {inner : Shape} (h : inner.InStep m m') :
    (Shape.optional inner).InStep m m' := by
  refine ((unaided_flag _).inStep fun _ => trivial).bind ?_
  rintro _ more ⟨rfl, -⟩
  cases more with
  | false => exact .pure (.same .absent)
  | true => exact Reader.InStep.bind h fun _ _ ht => .pure (.present ht)

/-- The discriminant is the same on both sides, and so is the arm it selects. -/
theorem inStep_union {disc : Shape} {arms : List (Int × String × Shape)}
    {fallback : Option (String × Shape)} (hdisc : disc.InStep m m')
    (harms : ∀ a ∈ arms, a.2.2.InStep m m') (hfallback : ∀ f ∈ fallback, f.2.InStep m m') :
    (Shape.union disc arms fallback).InStep m m' := by
  refine (unaided_offset.inStep fun _ => trivial).bind ?_
  rintro start _ ⟨rfl, -⟩
  refine Reader.InStep.bind hdisc ?_
  rintro ⟨d, us⟩ t' halike
  obtain ⟨hcode', hsame⟩ := halike.armCode
  dsimp only at hcode' hsame ⊢
  rw [← hcode']
  cases hcode : d.armCode? with
  | none => exact fun ctx c => .error _ c
  | some code =>
    obtain ⟨rfl, rfl, hd⟩ := hsame code hcode
    dsimp only
    rw [traceArm_eq]
    cases harm : arm? arms fallback code with
    | none => exact fun ctx c => .error _ c
    | some arm =>
      obtain ⟨name, s⟩ := arm
      have hs : s.InStep m m' := of_arm? harms hfallback harm
      refine Reader.InStep.bind (((Reader.InStep.within hs (.name name)).map
        (S := fun a b => a.1.1 = name ∧ b.1.1 = name ∧ s.Alike m m' (a.1.2, a.2) (b.1.2, b.2))
        fun t t' ht => ⟨rfl, rfl, ht⟩)) ?_
      rintro ⟨⟨_, v⟩, us⟩ ⟨⟨_, v'⟩, us'⟩ ⟨rfl, rfl, hv⟩
      exact .pure (.union hd hcode harm hv)

/-- **Every shape is read in step with two maps that list the same chunks.** -/
theorem inStep_trace (hrefs : m.SameRefs m') (shape : Shape) : shape.InStep m m' := by
  induction shape with
  | void => exact .pure (.same .void)
  | int => exact inStep_leaf unaided_int .int rfl fun _ => .int _
  | uint => exact inStep_leaf unaided_uint .uint rfl fun _ => .uint _
  | hyper => exact inStep_leaf unaided_hyper .hyper rfl fun _ => .hyper _
  | uhyper => exact inStep_leaf unaided_uhyper .uhyper rfl fun _ => .uhyper _
  | bool => exact inStep_leaf (unaided_flag .boolean) .bool rfl fun _ => .bool _
  | enum table fixed =>
    refine ((unaided_enum table fixed).inStep (P := (Shape.enum table fixed).Conforms) ?_).bind ?_
    · intro ctx c c' v h
      obtain ⟨code, hjudge, -⟩ := enum_ok_iff.mp h
      obtain ⟨rfl, husable, -⟩ := judge_ok_iff.mp hjudge
      exact .enum husable
    · rintro v _ ⟨rfl, hv⟩
      exact .pure (.same hv)
  | octets extent ddp =>
    obtain size | max := extent
    · exact inStep_leaf (unaided_octets size.toNat) .octets rfl fun h =>
        .octets (octets_ok_iff.mp h).1
    · exact inStep_item hrefs (.octets max ddp)
  | text max ddp => exact inStep_item hrefs (.text max ddp)
  | array elem extent ih => exact inStep_array extent ih
  | chain elem ih => exact inStep_chain ih
  | optional inner ih => exact inStep_optional ih
  | struct fields ih =>
    refine (inStep_traceFields ih).bind ?_
    rintro _ _ ⟨parts, rfl, rfl, rfl, hparts⟩
    exact .pure (.struct hparts)
  | union disc arms fallback ihd iha ihf => exact inStep_union ihd iha ihf

/-- Whatever is read is alike itself. -/
theorem alike_self {shape : Shape} {ctx : ReadContext} {c c' : Cursor} {t : Traced}
    (hm : ctx.chunks = some m) (h : shape.trace ctx c = .ok t c') : shape.Alike m m t t := by
  have hagree := shape.inStep_trace (m := m) ⟨rfl, rfl⟩ ctx c
  rw [← hm, h] at hagree
  cases hagree with
  | ok _ halike => exact halike

end Shape

/-- **What chunks hold does not steer the reading.** With two maps that list the same chunks,
reading stops with the same error, or it ends at the same cursor, with the same number of write
chunks used, and the values differ only where an item was taken from a chunk: there each of them is
what its own chunk has of the item, or the reference to it. -/
theorem decode_in_step (shape : Shape) (ctx : ReadContext) (c : Cursor) {m m' : ChunkMap}
    (hrefs : m.SameRefs m') :
    (∃ e c', shape.decode { ctx with chunks := some m } c = .error e c' ∧
      shape.decode { ctx with chunks := some m' } c = .error e c') ∨
    ∃ v v' us us' c', shape.decode { ctx with chunks := some m } c = .ok v c' ∧
      shape.decode { ctx with chunks := some m' } c = .ok v' c' ∧
      shape.trace { ctx with chunks := some m } c = .ok (v, us) c' ∧
      shape.trace { ctx with chunks := some m' } c = .ok (v', us') c' ∧
      shape.Alike m m' (v, us) (v', us') := by
  have hagree := shape.inStep_trace hrefs ctx c
  have hdecode := Shape.decode_eq_trace shape
  rw [← bind_pure_comp] at hdecode
  rw [hdecode]
  generalize hx : shape.trace { ctx with chunks := some m } c = r,
    hy : shape.trace { ctx with chunks := some m' } c = r' at hagree
  cases hagree with
  | @ok t t' c' halike =>
    exact .inr ⟨t.1, t'.1, t.2, t'.2, c', Reader.bind_of_ok hx, Reader.bind_of_ok hy, rfl, rfl,
      halike⟩
  | error e c' => exact .inl ⟨e, c', Reader.bind_of_error hx, Reader.bind_of_error hy⟩

/-- Data in a chunk that the one capture has and the other lacks, and a number behind it. -/
theorem decode_in_step_had_and_lacked :
    let shape := Shape.struct [("data", Shape.anyOctets), ("next", Shape.uint)]
    let ref : ChunkRef := { kind := .read, index := 0, position := 4, length := 2, handles := [] }
    let had : ChunkMap := { reads := [{ ref, data := some [1, 2] }] }
    let lacked : ChunkMap := { reads := [{ ref, data := none }] }
    ∃ us us', shape.Alike had lacked
      (.struct [("data", .octets [1, 2]), ("next", .uint 7)], us)
      (.struct [("data", .unresolved ref), ("next", .uint 7)], us') := by
  intro shape ref had lacked
  have hrefs : had.SameRefs lacked := ⟨rfl, rfl⟩
  obtain ⟨e, c', herror, -⟩ | ⟨v, v', us, us', c', hv, hv', -, -, halike⟩ :=
    decode_in_step shape {} (Cursor.at [0, 0, 0, 2, 0, 0, 0, 7] 0) hrefs
  · cases herror
  · cases hv
    cases hv'
    exact ⟨us, us', halike⟩

end NfsWire
