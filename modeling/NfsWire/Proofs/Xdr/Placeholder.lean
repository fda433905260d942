import NfsWire.Proofs.Xdr.Alike
import NfsWire.Proofs.Xdr.Writing

/-!
# What is missing of a value

An item whose chunk the capture lacks stands in the value as a reference. The references are
collected from the value alone, by a walk that knows nothing of the reading, and still they are
those of the chunks that were used without data, in the order of use: `Alike.missing`.

A value in which nothing is missing conforms, so it can be written (`Alike.conforms`). For the
converse, a writer that succeeds did so for each of its parts (`Writer.Succeeds`), and no reference
can be written: `Alike.missing_of_succeeds`. Both need one side of two readings only, so one value
and its uses are spoken of as the left side of `Shape.Alike`.
-/

namespace NfsWire

/-- References of the chunks that were used without data. -/
def lacking (us : List ChunkUse) : List ChunkRef :=
  (us.filter (·.chunk.data.isNone)).map (·.chunk.ref)

theorem lacking_append (us vs : List ChunkUse) : lacking (us ++ vs) = lacking us ++ lacking vs := by
  rw [lacking, List.filter_append, List.map_append]
  rfl

theorem lacking_flatMap {α : Type} (f : α → List ChunkUse) (xs : List α) :
    lacking (xs.flatMap f) = xs.flatMap fun x => lacking (f x) := by
  induction xs with
  | nil => rfl
  | cons x xs ih => rw [List.flatMap_cons, lacking_append, ih, List.flatMap_cons]

namespace Value

theorem missing_array (items : List Value) :
    (Value.array items).missing = items.flatMap (·.missing) := by
  rw [missing]
  induction items with
  | nil => rfl
  | cons v rest ih => rw [missingItems, ih, List.flatMap_cons]

theorem missing_struct (record : Fields) :
    (Value.struct record).missing = record.flatMap (·.2.missing) := by
  rw [missing]
  induction record with
  | nil => rfl
  | cons f rest ih => rw [missingFields, ih, List.flatMap_cons]

end Value

/-! ## Placeholders and uses -/

namespace Shape

variable {m m' : ChunkMap} {shape : Shape} {v : Value} {t t' : Traced}

/-- Nothing is missing of a conforming value. -/
theorem Conforms.missing (h : shape.Conforms v) : v.missing = [] := by
  induction h with
  | void | int | uint | hyper | uhyper | bool | enum | octets | text | absent => rfl
  | array _ _ ih | chain _ ih =>
    rw [Value.missing_array]
    exact List.flatMap_eq_nil_iff.mpr ih
  | present _ ih => exact ih
  | @struct fields record hnames _ ih =>
    rw [Value.missing_struct]
    refine List.flatMap_eq_nil_iff.mpr fun f hf => ?_
    obtain ⟨i, hi, rfl⟩ := List.mem_iff_getElem.mp hf
    have hlen : record.length = fields.length := by
      simpa using congrArg List.length hnames
    have hmem : (fields[i], record[i]) ∈ fields.zip record := by
      rw [← List.getElem_zip (h := by rw [List.length_zip]; omega)]
      exact List.getElem_mem _
    exact ih _ hmem
  | union _ _ _ _ _ ih => exact ih

/-- What an item holds is missing if its chunk has no data. -/
theorem IsItem.missing {wrap : Bytes → Value} {max : Option UInt32} {ddp : Bool} {u : ChunkUse}
    (h : shape.IsItem wrap max ddp) (hv : u.Gives wrap v) : v.missing = lacking [u] := by
  cases hdata : u.chunk.data with
  | none =>
    rw [hv.missing hdata, lacking, List.filter_cons_of_pos (by rw [hdata]; rfl)]
    rfl
  | some data =>
    rw [hv.present data hdata, lacking, List.filter_cons_of_neg (by rw [hdata]; nofun)]
    cases h with
    | octets => rfl
    | text => rfl

/-- **The references found in a value are those of the chunks used without data, in order.** -/
theorem Alike.missing (h : shape.Alike m m' t t') : t.1.missing = lacking t.2 := by
  induction h with
  | same hv => exact hv.missing
  | taken hshape _ _ hv _ => exact hshape.missing hv
  | @array _ _ parts _ _ ih | @chain _ parts _ ih =>
    rw [Value.missing_array, lacking_flatMap, List.flatMap_map]
    rw [List.flatMap_def, List.flatMap_def, List.map_congr_left ih]
  | present _ ih => exact ih
  | @struct parts _ ih =>
    rw [Value.missing_struct, lacking_flatMap, List.flatMap_map]
    rw [List.flatMap_def, List.flatMap_def, List.map_congr_left ih]
  | union _ _ _ _ ih => exact ih

/-- What was read of an item is within its maximum, if it was there at all. -/
theorem IsItem.conforms_of_gives {wrap : Bytes → Value} {max : Option UInt32} {ddp : Bool}
    {u : ChunkUse} (h : shape.IsItem wrap max ddp) (hn : (Extent.variable max).Admits u.length)
    (hv : u.Gives wrap v) (hnone : lacking [u] = []) : shape.Conforms v := by
  cases hdata : u.chunk.data with
  | none =>
    rw [lacking, List.filter_cons_of_pos (by rw [hdata]; rfl)] at hnone
    cases hnone
  | some data =>
    rw [hv.present data hdata]
    refine h.conforms ?_
    obtain ⟨hword, hmax⟩ := Extent.admits_variable.mp hn
    have hle : (data.take u.length).length ≤ u.length := List.length_take_le ..
    exact Extent.admits_variable.mpr
      ⟨Nat.lt_of_le_of_lt hle hword, fun max h => Nat.le_trans hle (hmax max h)⟩

/-- **A value of which nothing is missing conforms.** -/
theorem Alike.conforms (h : shape.Alike m m' t t') (hnone : lacking t.2 = []) :
    shape.Conforms t.1 := by
  induction h with
  | same hv => exact hv
  | taken hshape hn _ hv _ => exact hshape.conforms_of_gives hn hv hnone
  | @array elem extent parts hn _ ih =>
    rw [lacking_flatMap, List.flatMap_eq_nil_iff] at hnone
    refine .array (by rwa [List.length_map]) (List.forall_mem_map.mpr fun p hp => ?_)
    exact ih p hp (hnone p hp)
  | @chain elem parts _ ih =>
    rw [lacking_flatMap, List.flatMap_eq_nil_iff] at hnone
    exact .chain (List.forall_mem_map.mpr fun p hp => ih p hp (hnone p hp))
  | present _ ih => exact .present (ih hnone)
  | @struct parts _ ih =>
    rw [lacking_flatMap, List.flatMap_eq_nil_iff] at hnone
    refine .struct (by simp [Function.comp_def]) ?_
    rw [List.zip_map']
    exact List.forall_mem_map.mpr fun p hp => ih p hp (hnone p hp)
  | union hd hcode harm _ ih => exact .union hd hcode harm (ih hnone)

end Shape

/-! ## Writers that succeed -/

namespace Writer

/-- There is a place where the writer gives octets. -/
def Succeeds (w : Writer) : Prop := ∃ path written data, w path written = .ok data

theorem Writes.succeeds {w : Writer} {data : Bytes} (h : w.Writes data) : w.Succeeds := by
  obtain ⟨path, written, h⟩ := h
  exact ⟨path, written, data, h⟩

theorem Succeeds.writes {w : Writer} (h : w.Succeeds) : ∃ data, w.Writes data := by
  obtain ⟨path, written, data, h⟩ := h
  exact ⟨data, path, written, h⟩

theorem Succeeds.then {a b : Writer} (h : (a.then b).Succeeds) : a.Succeeds ∧ b.Succeeds := by
  obtain ⟨data, h⟩ := h.writes
  obtain ⟨x, y, hx, hy, -⟩ := h.then
  exact ⟨hx.succeeds, hy.succeeds⟩

theorem Succeeds.within {w : Writer} {segment : Segment} (h : (within segment w).Succeeds) :
    w.Succeeds := by
  obtain ⟨data, h⟩ := h.writes
  exact h.within.succeeds

theorem not_succeeds_fail (fault : Fault) : ¬ (fail fault).Succeeds := by
  intro h
  obtain ⟨data, h⟩ := h.writes
  exact not_writes_fail h

theorem Succeeds.each {α : Type} {elem : α → Writer} {i : Nat} {xs : List α}
    (h : (each elem i xs).Succeeds) : ∀ x ∈ xs, (elem x).Succeeds := by
  obtain ⟨data, h⟩ := h.writes
  obtain ⟨rows, rfl, -, hrows⟩ := h.each fun _ data h => ⟨data, h, rfl⟩
  exact List.forall_mem_map.mpr fun r hr => (hrows r hr).succeeds

end Writer

namespace Shape

open Writer

/-- The fields of a record are all written, if their names are found in it. -/
theorem succeeds_encodeFields {fields : List (String × Shape)} {record whole : Fields}
    (hnames : record.map (·.1) = fields.map (·.1)) (hdistinct : (whole.map (·.1)).Nodup)
    (hmem : ∀ r ∈ record, r ∈ whole) (h : (encodeFields fields whole).Succeeds) :
    ∀ p ∈ fields.zip record, (p.1.2.encode p.2.2).Succeeds := by
  induction fields generalizing record with
  | nil => exact nofun
  | cons f rest ih =>
    obtain ⟨name, s⟩ := f
    rcases record with _ | ⟨⟨name', v⟩, record⟩
    · exact nofun
    · obtain ⟨hname, hrest⟩ := List.cons_eq_cons.mp hnames
      cases hname
      rw [encodeFields, find?_of_mem_fields hdistinct (hmem _ List.mem_cons_self)] at h
      obtain ⟨hv, h⟩ := Succeeds.then h
      exact List.forall_mem_cons.mpr ⟨hv.within,
        ih hrest (fun r hr => hmem r (List.mem_cons_of_mem _ hr)) h⟩

theorem succeeds_encodeArm {arms : List (Int × String × Shape)}
    {fallback : Option (String × Shape)} {code : Int} {arm : String} {s : Shape} {v : Value}
    {disc : Writer} (harm : arm? arms fallback code = some (arm, s))
    (h : (encodeArm arms code disc arm v (encodeFallback fallback code disc arm v)).Succeeds) :
    (s.encode v).Succeeds := by
  obtain ⟨data, h⟩ := h.writes
  obtain ⟨s', x, y, harm', -, hv, -⟩ := writes_encodeArm h
  rw [harm] at harm'
  cases harm'
  exact hv.succeeds

variable {m m' : ChunkMap} {shape : Shape} {t t' : Traced}

/-- **What can be written has nothing missing.** -/
theorem Alike.missing_of_succeeds (h : shape.Alike m m' t t') (hd : shape.distinctNames = true)
    (hw : (shape.encode t.1).Succeeds) : t.1.missing = [] := by
  induction h with
  | same hv => exact hv.missing
  | @taken shape wrap max ddp u _ v _ hshape _ _ hv _ =>
    cases hdata : u.chunk.data with
    | none =>
      rw [hv.missing hdata, encode] at hw
      exact absurd hw (not_succeeds_fail _)
    | some data =>
      rw [hv.present data hdata]
      cases hshape with
      | octets => rfl
      | text => rfl
  | @array elem extent parts _ _ ih =>
    rw [distinctNames] at hd
    have helems : ∀ v ∈ parts.map (·.1.1), (elem.encode v).Succeeds := by
      obtain size | max := extent
      · rw [encode] at hw
        split at hw
        · exact hw.each
        · exact absurd hw (not_succeeds_fail _)
      · rw [encode] at hw
        exact hw.then.2.each
    rw [Value.missing_array, List.flatMap_eq_nil_iff]
    exact List.forall_mem_map.mpr fun p hp => ih p hp hd (List.forall_mem_map.mp helems p hp)
  | @chain elem parts _ ih =>
    rw [distinctNames] at hd
    rw [encode] at hw
    rw [Value.missing_array, List.flatMap_eq_nil_iff]
    exact List.forall_mem_map.mpr fun p hp =>
      ih p hp hd (hw.then.1.each _ (List.mem_map_of_mem hp)).then.2
  | present _ ih =>
    rw [distinctNames] at hd
    rw [encode] at hw
    exact ih hd hw.then.2
  | @struct parts _ ih =>
    obtain ⟨hnodup, hfields⟩ := distinctNames_struct.mp hd
    have hnames :
        (parts.map fun p => (p.1.1, p.2.1.1)).map (·.1) = (parts.map (·.1)).map (·.1) := by
      rw [List.map_map, List.map_map]
      rfl
    rw [encode] at hw
    have hparts := succeeds_encodeFields hnames (hnames ▸ hnodup) (fun _ hr => hr) hw
    rw [List.zip_map', List.forall_mem_map] at hparts
    rw [Value.missing_struct, List.flatMap_eq_nil_iff]
    exact List.forall_mem_map.mpr fun p hp =>
      ih p hp (hfields p.1 (List.mem_map_of_mem hp)) (hparts p hp)
  | union _ hcode harm _ ih =>
    obtain ⟨-, harms, hfallback⟩ := distinctNames_union.mp hd
    have hs := of_arm? (motive := fun s => s.distinctNames = true) harms hfallback harm
    simp only [encode, hcode] at hw
    exact ih hs (succeeds_encodeArm harm hw)

/-- **A value that was read can be written if and only if nothing is missing of it.** -/
theorem Alike.encode_iff (h : shape.Alike m m' t t') (hd : shape.distinctNames = true) :
    (∃ data, NfsWire.encode t.1 shape = .ok data) ↔ t.1.missing = [] := by
  constructor
  · intro hw
    obtain ⟨data, hw⟩ := hw
    exact h.missing_of_succeeds hd ⟨[], 0, data, hw⟩
  · intro hnone
    have hv : shape.Conforms t.1 := h.conforms (h.missing ▸ hnone)
    exact ⟨_, encode_whole hv hd⟩

end Shape

end NfsWire
