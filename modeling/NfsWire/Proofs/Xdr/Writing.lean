import NfsWire.Proofs.Xdr.Layout
import NfsWire.Table

/-!
# What a writer gives

A writer that succeeds gives the same octets whatever path it is at and however much was written
before: path and count only go into errors. `Writer.Gives` says so, and has one rule for each
way of putting writers together. From these rules, a conforming value is always written, and what
is written are its pieces in their order: `encode_whole`.

For the way back it is enough that a writer gave its data at one place: `Writer.Writes` says so,
and takes each way of putting writers together apart again.
-/

namespace NfsWire

namespace Writer

/-- The writer succeeds at every place, always with this data. -/
def Gives (w : Writer) (data : Bytes) : Prop := ∀ path written, w path written = .ok data

theorem gives_emit (data : Bytes) : (emit data).Gives data := fun _ _ => rfl

theorem gives_uint (w : UInt32) : (uint w).Gives (Bytes.word w) := gives_emit _

theorem gives_octets (data : Bytes) : (octets data).Gives (Bytes.filled data) := gives_emit _

theorem Gives.then {a b : Writer} {x y : Bytes} (ha : a.Gives x) (hb : b.Gives y) :
    (a.then b).Gives (x ++ y) := by
  intro path written
  unfold Writer.then
  rw [ha path written]
  show (do let y ← b path (written + x.length); return x ++ y : Except EncodeError Bytes) = _
  rw [hb path _]
  rfl

theorem Gives.within {w : Writer} {data : Bytes} (segment : Segment) (h : w.Gives data) :
    (within segment w).Gives data := fun path written => h (path ++ [segment]) written

theorem gives_each {α : Type} {elem : α → Writer} {data : α → Bytes} {xs : List α}
    (h : ∀ x ∈ xs, (elem x).Gives (data x)) (i : Nat) :
    (each elem i xs).Gives (xs.flatMap data) := by
  induction xs generalizing i with
  | nil => exact gives_emit _
  | cons x rest ih =>
    have hx := h x List.mem_cons_self
    exact (hx.within (.index i)).then (ih (fun y hy => h y (List.mem_cons_of_mem _ hy)) (i + 1))

theorem each_map {α β : Type} (elem : β → Writer) (f : α → β) (i : Nat) (xs : List α) :
    each elem i (xs.map f) = each (fun x => elem (f x)) i xs := by
  induction xs generalizing i with
  | nil => rfl
  | cons x rest ih => rw [List.map_cons, each, each, ih]

/-- A length is written as far as a word holds it, if that is within the maximum. -/
theorem gives_length_of_le {n : Nat} {max : Option UInt32}
    (h : ∀ m ∈ max, UInt32.ofNat n ≤ m) : (length n max).Gives (Bytes.word (UInt32.ofNat n)) := by
  unfold length
  cases max with
  | none => exact gives_uint _
  | some m =>
    have hle : ¬ m < UInt32.ofNat n := UInt32.not_lt.mpr (h m rfl)
    simp only [if_neg hle]
    exact gives_uint _

/-- A length within its maximum is written as it is. -/
theorem gives_length {n : Nat} {max : Option UInt32} (h : (Extent.variable max).Admits n) :
    (length n max).Gives (Bytes.word (UInt32.ofNat n)) := by
  obtain ⟨hn, hmax⟩ := Extent.admits_variable.mp h
  exact gives_length_of_le fun m hm => (UInt32.ofNat_le_iff hn).mpr (hmax m hm)

theorem gives_counted {data : Bytes} {max : Option UInt32}
    (h : (Extent.variable max).Admits data.length) :
    (counted data max).Gives (Bytes.word (UInt32.ofNat data.length) ++ Bytes.filled data) :=
  (gives_length h).then (gives_octets data)

/-! ## What was written, taken apart -/

/-- There is a place where the writer gives this data. -/
def Writes (w : Writer) (data : Bytes) : Prop := ∃ path written, w path written = .ok data

@[simp] theorem not_writes_fail {fault : Fault} {data : Bytes} : ¬ (fail fault).Writes data := by
  rintro ⟨path, written, h⟩
  cases h

theorem Writes.emit {x data : Bytes} (h : (Writer.emit x).Writes data) : x = data := by
  obtain ⟨path, written, h⟩ := h
  cases h
  rfl

theorem Writes.then {a b : Writer} {data : Bytes} (h : (a.then b).Writes data) :
    ∃ x y, a.Writes x ∧ b.Writes y ∧ data = x ++ y := by
  obtain ⟨path, written, h⟩ := h
  unfold Writer.then at h
  cases ha : a path written with
  | error e =>
    rw [ha] at h
    cases h
  | ok x =>
    rw [ha] at h
    cases hb : b path (written + x.length) with
    | error e =>
      simp only [bind, Except.bind, hb] at h
      cases h
    | ok y =>
      simp only [bind, Except.bind, hb] at h
      cases h
      exact ⟨x, y, ⟨_, _, ha⟩, ⟨_, _, hb⟩, rfl⟩

theorem Writes.within {w : Writer} {segment : Segment} {data : Bytes}
    (h : (within segment w).Writes data) : w.Writes data := by
  obtain ⟨path, written, h⟩ := h
  exact ⟨_, _, h⟩

/-- Of elements that were written each has its part of the octets, in a frame around its data. -/
theorem Writes.each {α : Type} {elem part : α → Writer} {frame : Bytes → Bytes}
    (hpart : ∀ x data, (elem x).Writes data → ∃ inner, (part x).Writes inner ∧ data = frame inner)
    {i : Nat} {xs : List α} {data : Bytes} (h : (each elem i xs).Writes data) :
    ∃ rows : List (α × Bytes), rows.map (·.1) = xs ∧
      rows.flatMap (fun r => frame r.2) = data ∧ ∀ r ∈ rows, (part r.1).Writes r.2 := by
  induction xs generalizing i data with
  | nil => exact ⟨[], rfl, Writes.emit h, nofun⟩
  | cons x rest ih =>
    obtain ⟨front, back, hx, hrest, rfl⟩ := Writes.then h
    obtain ⟨inner, hinner, rfl⟩ := hpart x front hx.within
    obtain ⟨rows, rfl, rfl, hrows⟩ := ih hrest
    exact ⟨(x, inner) :: rows, rfl, rfl, List.forall_mem_cons.mpr ⟨hinner, hrows⟩⟩

theorem Writes.length {n : Nat} {max : Option UInt32} {data : Bytes}
    (h : (length n max).Writes data) :
    (∀ m ∈ max, UInt32.ofNat n ≤ m) ∧ data = Bytes.word (UInt32.ofNat n) := by
  unfold Writer.length at h
  cases max with
  | none => exact ⟨nofun, (Writes.emit h).symm⟩
  | some m =>
    by_cases hm : m < UInt32.ofNat n
    · simp only [if_pos hm] at h
      exact absurd h not_writes_fail
    · simp only [if_neg hm] at h
      refine ⟨fun m' hm' => ?_, (Writes.emit h).symm⟩
      cases hm'
      exact UInt32.not_lt.mp hm

theorem Writes.counted {octets data : Bytes} {max : Option UInt32}
    (h : (counted octets max).Writes data) :
    (∀ m ∈ max, UInt32.ofNat octets.length ≤ m) ∧
      data = Bytes.word (UInt32.ofNat octets.length) ++ Bytes.filled octets := by
  obtain ⟨x, y, hx, hy, rfl⟩ := Writes.then h
  obtain ⟨hmax, rfl⟩ := hx.length
  cases Writes.emit hy
  exact ⟨hmax, rfl⟩

end Writer

namespace Shape

open Writer

/-- The arm of a value is written if it is the one that the code selects. -/
theorem gives_encodeArm {arms : List (Int × String × Shape)} {fallback : Option (String × Shape)}
    {code : Int} {arm : String} {s : Shape} {v : Value} {disc : Writer} {x y : Bytes}
    (h : arm? arms fallback code = some (arm, s)) (hd : disc.Gives x)
    (hv : (s.encode v).Gives y) :
    (encodeArm arms code disc arm v (encodeFallback fallback code disc arm v)).Gives (x ++ y) := by
  induction arms with
  | nil =>
    rw [arm?_nil] at h
    rw [encodeArm, h, encodeFallback, if_pos rfl]
    exact hd.then (hv.within _)
  | cons a rest ih =>
    obtain ⟨c, name, s'⟩ := a
    rw [arm?_cons] at h
    rw [encodeArm]
    by_cases hc : c = code
    · rw [if_pos hc] at h ⊢
      cases h
      rw [if_pos rfl]
      exact hd.then (hv.within _)
    · rw [if_neg hc] at h ⊢
      exact ih h

/-- What is written of a union is a discriminant and the arm that it selects. -/
theorem writes_encodeArm {arms : List (Int × String × Shape)} {fallback : Option (String × Shape)}
    {code : Int} {arm : String} {v : Value} {disc : Writer} {data : Bytes}
    (h : (encodeArm arms code disc arm v (encodeFallback fallback code disc arm v)).Writes data) :
    ∃ s x y, arm? arms fallback code = some (arm, s) ∧ disc.Writes x ∧ (s.encode v).Writes y ∧
      data = x ++ y := by
  induction arms with
  | nil =>
    rw [arm?_nil]
    rw [encodeArm] at h
    cases fallback with
    | none => exact absurd h not_writes_fail
    | some f =>
      obtain ⟨name, s⟩ := f
      rw [encodeFallback] at h
      split at h
      · obtain ⟨x, y, hd, hv, rfl⟩ := Writes.then h
        subst_vars
        exact ⟨s, x, y, rfl, hd, hv.within, rfl⟩
      · exact absurd h not_writes_fail
  | cons a rest ih =>
    obtain ⟨c, name, s⟩ := a
    rw [arm?_cons]
    rw [encodeArm] at h
    by_cases hc : c = code
    · rw [if_pos hc] at h ⊢
      split at h
      · obtain ⟨x, y, hd, hv, rfl⟩ := Writes.then h
        subst_vars
        exact ⟨s, x, y, rfl, hd, hv.within, rfl⟩
      · exact absurd h not_writes_fail
    · rw [if_neg hc] at h ⊢
      exact ih h

/-- A record is searched from its front, so a field is found if its name comes only once. -/
theorem find?_of_mem_fields {record : Fields} (hdistinct : (record.map (·.1)).Nodup) {name : String}
    {v : Value} (h : (name, v) ∈ record) : record.find? name = some v := by
  rw [Fields.find?, Table.find?_key_of_mem Prod.fst hdistinct h]
  rfl

/-- Fields are looked up by name, so each is found when no name is repeated. -/
theorem gives_encodeFields {fields : List (String × Shape)} {record whole : Fields}
    {data : (String × Shape) × String × Value → Bytes}
    (hnames : record.map (·.1) = fields.map (·.1)) (hdistinct : (whole.map (·.1)).Nodup)
    (hmem : ∀ r ∈ record, r ∈ whole)
    (h : ∀ p ∈ fields.zip record, (p.1.2.encode p.2.2).Gives (data p)) :
    (encodeFields fields whole).Gives ((fields.zip record).flatMap data) := by
  induction fields generalizing record with
  | nil => exact gives_emit _
  | cons f rest ih =>
    obtain ⟨name, s⟩ := f
    rcases record with _ | ⟨⟨name', v⟩, record⟩
    · simp at hnames
    · obtain ⟨hname, hrest⟩ := List.cons_eq_cons.mp hnames
      cases hname
      have hfind := find?_of_mem_fields hdistinct (hmem (name, v) List.mem_cons_self)
      have hv := h ((name, s), (name, v)) List.mem_cons_self
      rw [encodeFields, hfind, List.zip_cons_cons, List.flatMap_cons]
      exact (hv.within _).then (ih hrest (fun r hr => hmem r (List.mem_cons_of_mem _ hr))
        fun p hp => h p (List.mem_cons_of_mem _ hp))

/-- **A conforming value is written as its pieces.** -/
theorem Conforms.gives {shape : Shape} {v : Value} (h : shape.Conforms v)
    (hd : shape.distinctNames = true) : (shape.encode v).Gives (whole (shape.layout v)) := by
  -- Every leaf is one fixed piece, or one fixed piece and the data of an item.
  have fixed {w : Writer} {data : Bytes} (hw : w.Gives data) :
      w.Gives (whole [Piece.fixed data]) := by
    rw [whole_cons, whole_nil, List.append_nil]
    exact hw
  have item {w : Writer} {x data : Bytes} (hw : w.Gives (x ++ Bytes.filled data)) :
      w.Gives (whole [Piece.fixed x, Piece.item data]) := by
    rw [whole_cons, whole_cons, whole_nil, List.append_nil]
    exact hw
  induction h with
  | void => rw [encode, layout]; exact gives_emit _
  | int | uint | enum => rw [encode, layout]; exact fixed (gives_uint _)
  | hyper | uhyper => rw [encode, layout]; exact fixed (gives_emit _)
  | bool | absent => rw [encode, layout]; exact fixed (gives_uint _)
  | @octets extent ddp data hn =>
    obtain size | max := extent
    · rw [encode, layout, if_pos (Extent.admits_fixed.mp hn)]
      exact fixed (gives_octets data)
    · rw [encode, layout]
      exact item (gives_counted hn)
  | text hn =>
    rw [encode, layout]
    exact item (gives_counted hn)
  | @array elem extent items hn _ ih =>
    rw [distinctNames] at hd
    have hitems := gives_each (fun v hv => ih v hv hd) 0
    obtain size | max := extent
    · rw [encode, layout, if_pos (Extent.admits_fixed.mp hn), countPieces, List.nil_append,
        whole_flatMap]
      exact hitems
    · rw [encode, layout, countPieces, whole_append, whole_flatMap]
      exact (fixed (gives_length hn)).then hitems
  | @chain elem items _ ih =>
    rw [distinctNames] at hd
    have hitem : ∀ v ∈ items, ((Writer.uint 1).then (elem.encode v)).Gives
        (whole (Piece.fixed (Bytes.word 1) :: elem.layout v)) := fun v hv =>
      (gives_uint 1).then (ih v hv hd)
    rw [encode, layout, whole_append, whole_flatMap]
    exact (gives_each hitem 0).then (fixed (gives_uint 0))
  | present _ ih =>
    rw [distinctNames] at hd
    rw [encode, layout]
    exact (gives_uint 1).then (ih hd)
  | @struct fields record hnames _ ih =>
    obtain ⟨hnodup, hfields⟩ := distinctNames_struct.mp hd
    rw [encode, layout_struct, whole_flatMap]
    exact gives_encodeFields hnames (hnames ▸ hnodup) (fun _ hr => hr) fun p hp =>
      ih p hp (hfields p.1 (List.of_mem_zip hp).1)
  | union _ hcode hs _ ihd ihs =>
    obtain ⟨hdisc, harms, hfallback⟩ := distinctNames_union.mp hd
    have harm := of_arm? (motive := fun s => s.distinctNames = true) harms hfallback hs
    simp only [encode, hcode, layout_union hcode hs, whole_append]
    exact gives_encodeArm hs (ihd hdisc) (ihs harm)

end Shape

/-- **A conforming value is always written, and what is written are its pieces.** -/
theorem encode_whole {shape : Shape} {v : Value} (h : shape.Conforms v)
    (hd : shape.distinctNames = true) : encode v shape = .ok (whole (shape.layout v)) :=
  h.gives hd [] 0

end NfsWire
