import NfsWire.Proofs.Xdr.Conform
import NfsWire.Xdr.Encode

/-!
# The octets of a value, piece by piece

`Shape.layout` lists what a value looks like on the wire as a flat row of pieces. Most pieces stay
where they are; the data of an item with a length word in front is a piece of its own, because a
transport may carry it elsewhere. With the tree gone, everything about positions, padding and
removed items is a fact about a list.

Of the pieces of a conforming value three things are shown: each fills whole words
(`Conforms.aligned`), each item has its length in front of it (`Conforms.announced`), and those that
stay in line take at least the room that the shape promises (`Conforms.minSize_le`).
-/

namespace NfsWire

namespace Bytes

/-- A word of 32 bits. -/
def word (w : UInt32) : Bytes := ofNat 4 w.toNat

/-- Data and its padding. -/
def filled (data : Bytes) : Bytes := data ++ List.replicate (padding data.length) 0

@[simp] theorem length_word (w : UInt32) : (word w).length = 4 := length_ofNat ..

theorem toNat_word (w : UInt32) : toNat (word w) = w.toNat := by
  rw [word, toNat_ofNat]
  exact Nat.mod_eq_of_lt w.toNat_lt

theorem word_inj {v w : UInt32} (h : word v = word w) : v = w := by
  rw [← UInt32.toNat_inj, ← toNat_word, ← toNat_word, h]

@[simp] theorem length_filled (data : Bytes) : (filled data).length = padded data.length := by
  simp [filled, padded]

theorem four_dvd_padded (n : Nat) : 4 ∣ padded n := by
  rw [padded_eq]
  exact Nat.dvd_mul_left ..

end Bytes

/-! ## Pieces -/

/-- A run of octets in the encoding of a value. -/
inductive Piece where
  /-- Octets that are always in line. -/
  | fixed (octets : Bytes)
  /-- The data of an item whose length stands in front of it. -/
  | item (data : Bytes)
  deriving DecidableEq, Repr

namespace Piece

/-- The piece as it is when nothing was taken out. -/
def octets : Piece → Bytes
  | .fixed octets => octets
  | .item data => Bytes.filled data

/-- The room the piece takes in line even when its data is elsewhere. -/
def fixedSize : Piece → Nat
  | .fixed octets => octets.length
  | .item _ => 0

end Piece

/-- All octets of a row of pieces. -/
def whole (pieces : List Piece) : Bytes := pieces.flatMap Piece.octets

/-- The room of the pieces that are always in line. -/
def fixedSize (pieces : List Piece) : Nat :=
  @List.sum Nat _ Zero.ofOfNat0 (pieces.map Piece.fixedSize)

@[simp] theorem whole_nil : whole [] = [] := rfl

@[simp] theorem whole_cons (p : Piece) (ps : List Piece) : whole (p :: ps) = p.octets ++ whole ps :=
  List.flatMap_cons

@[simp] theorem whole_append (ps qs : List Piece) : whole (ps ++ qs) = whole ps ++ whole qs :=
  List.flatMap_append

@[simp] theorem fixedSize_nil : fixedSize [] = 0 := rfl

@[simp] theorem fixedSize_cons (p : Piece) (ps : List Piece) :
    fixedSize (p :: ps) = p.fixedSize + fixedSize ps := rfl

@[simp] theorem fixedSize_append (ps qs : List Piece) :
    fixedSize (ps ++ qs) = fixedSize ps + fixedSize qs := by
  rw [fixedSize, List.map_append]
  exact List.sum_append_nat

theorem whole_flatMap {α : Type} (f : α → List Piece) (xs : List α) :
    whole (xs.flatMap f) = xs.flatMap fun x => whole (f x) :=
  List.flatMap_assoc

/-- Parts of at least a given room take at least their number times that room. -/
theorem mul_le_fixedSize_flatMap {α : Type} {f : α → List Piece} {size : Nat} {xs : List α}
    (h : ∀ x ∈ xs, size ≤ fixedSize (f x)) : size * xs.length ≤ fixedSize (xs.flatMap f) := by
  induction xs with
  | nil => simp
  | cons x xs ih =>
    have hx := h x List.mem_cons_self
    have hxs := ih fun y hy => h y (List.mem_cons_of_mem _ hy)
    rw [List.flatMap_cons, fixedSize_append, List.length_cons, Nat.mul_succ]
    omega

/-- Each item has a word with its length right in front of it. -/
inductive Announced : List Piece → Prop where
  | nil : Announced []
  | fixed {octets : Bytes} {ps : List Piece} : Announced ps → Announced (.fixed octets :: ps)
  | item {data : Bytes} {ps : List Piece} :
      Announced ps → Announced (.fixed (Bytes.word (UInt32.ofNat data.length)) :: .item data :: ps)

theorem Announced.append {ps qs : List Piece} (hp : Announced ps) (hq : Announced qs) :
    Announced (ps ++ qs) := by
  induction hp with
  | nil => exact hq
  | fixed _ ih => exact .fixed ih
  | item _ ih => exact .item ih

theorem Announced.flatMap {α : Type} {f : α → List Piece} {xs : List α}
    (h : ∀ x ∈ xs, Announced (f x)) : Announced (xs.flatMap f) := by
  induction xs with
  | nil => exact .nil
  | cons x xs ih =>
    have hx := h x List.mem_cons_self
    have hxs := ih fun y hy => h y (List.mem_cons_of_mem _ hy)
    rw [List.flatMap_cons]
    exact hx.append hxs

namespace Shape

/-- The count word in front of the elements of an array, unless their number is fixed. -/
def countPieces : Extent → Nat → List Piece
  | .fixed _, _ => []
  | .variable _, n => [.fixed (Bytes.word (UInt32.ofNat n))]

mutual

/-- The pieces of a value. -/
def layout : Shape → Value → List Piece
  | .void, .void => []
  | .int, .int v => [.fixed (Bytes.word v.toUInt32)]
  | .uint, .uint v => [.fixed (Bytes.word v)]
  | .hyper, .hyper v => [.fixed (Bytes.ofNat 8 v.toUInt64.toNat)]
  | .uhyper, .uhyper v => [.fixed (Bytes.ofNat 8 v.toNat)]
  | .bool, .bool b => [.fixed (Bytes.word (if b then 1 else 0))]
  | .enum .., .enum code _ => [.fixed (Bytes.word code.toUInt32)]
  | .octets (.fixed _) _, .octets data => [.fixed (Bytes.filled data)]
  | .octets (.variable _) _, .octets data | .text .., .text data =>
    [.fixed (Bytes.word (UInt32.ofNat data.length)), .item data]
  | .array elem extent, .array items => countPieces extent items.length ++ items.flatMap elem.layout
  | .chain elem, .array items =>
    items.flatMap (fun v => .fixed (Bytes.word 1) :: elem.layout v) ++ [.fixed (Bytes.word 0)]
  | .optional _, .optional none => [.fixed (Bytes.word 0)]
  | .optional inner, .optional (some v) => .fixed (Bytes.word 1) :: inner.layout v
  | .struct fields, .struct record => layoutFields fields record
  | .union disc arms fallback, .union d _ v =>
    disc.layout d ++
      match d.armCode? with
      | none => []
      | some code => layoutArm arms code v (layoutFallback fallback v)
  | _, _ => []

def layoutFields : List (String × Shape) → Fields → List Piece
  | (_, s) :: rest, (_, v) :: record => s.layout v ++ layoutFields rest record
  | _, _ => []

def layoutArm : List (Int × String × Shape) → (code : Int) → Value → (otherwise : List Piece) →
    List Piece
  | [], _, _, otherwise => otherwise
  | (c, _, s) :: rest, code, v, otherwise =>
    if c = code then s.layout v else layoutArm rest code v otherwise

def layoutFallback : Option (String × Shape) → Value → List Piece
  | none, _ => []
  | some (_, s), v => s.layout v

end

theorem layoutArm_eq {arms : List (Int × String × Shape)} {fallback : Option (String × Shape)}
    {code : Int} {arm : String} {s : Shape} (h : arm? arms fallback code = some (arm, s))
    (v : Value) : layoutArm arms code v (layoutFallback fallback v) = s.layout v := by
  induction arms with
  | nil =>
    rw [arm?_nil] at h
    rw [layoutArm, h, layoutFallback]
  | cons a rest ih =>
    obtain ⟨c, name, s'⟩ := a
    rw [arm?_cons] at h
    rw [layoutArm]
    by_cases hc : c = code
    · rw [if_pos hc] at h ⊢
      cases h; rfl
    · rw [if_neg hc] at h ⊢
      exact ih h

theorem layout_union {disc s : Shape} {arms : List (Int × String × Shape)}
    {fallback : Option (String × Shape)} {d v : Value} {arm arm' : String} {code : Int}
    (hd : d.armCode? = some code) (h : arm? arms fallback code = some (arm, s)) :
    (Shape.union disc arms fallback).layout (.union d arm' v) = disc.layout d ++ s.layout v := by
  rw [layout, hd]
  exact congrArg _ (layoutArm_eq h v)

theorem layout_struct (fields : List (String × Shape)) (record : Fields) :
    (Shape.struct fields).layout (.struct record) =
      (fields.zip record).flatMap fun p => p.1.2.layout p.2.2 := by
  rw [layout]
  induction fields generalizing record with
  | nil => rfl
  | cons f rest ih =>
    cases record with
    | nil => rfl
    | cons r record => rw [layoutFields, ih, List.zip_cons_cons, List.flatMap_cons]

/-! ## Whole words -/

/-- Every piece of a conforming value fills whole words. -/
theorem Conforms.aligned {shape : Shape} {v : Value} (h : shape.Conforms v) :
    ∀ p ∈ shape.layout v, 4 ∣ p.octets.length := by
  -- Scalars, flags and counts are all words.
  have word (w : UInt32) : ∀ p ∈ [Piece.fixed (Bytes.word w)], 4 ∣ p.octets.length := by
    simp [Piece.octets]
  induction h with
  | void => simp [layout]
  | int | uint | bool | enum | absent => exact word _
  | hyper | uhyper => simp [layout, Piece.octets]
  | @octets extent =>
    obtain size | max := extent <;> simp [layout, Piece.octets, Bytes.four_dvd_padded]
  | text => simp [layout, Piece.octets, Bytes.four_dvd_padded]
  | @array elem extent items _ _ ih =>
    intro p hp
    rw [layout, List.mem_append, List.mem_flatMap] at hp
    rcases hp with hp | ⟨x, hx, hp⟩
    · obtain size | max := extent
      · cases hp
      · exact word _ p hp
    · exact ih x hx p hp
  | chain _ ih =>
    intro p hp
    rw [layout, List.mem_append, List.mem_flatMap] at hp
    rcases hp with ⟨x, hx, hp⟩ | hp
    · rcases List.mem_cons.mp hp with rfl | hp
      · exact word _ _ List.mem_cons_self
      · exact ih x hx p hp
    · exact word _ p hp
  | present _ ih =>
    intro p hp
    rcases List.mem_cons.mp hp with rfl | hp
    · exact word _ _ List.mem_cons_self
    · exact ih p hp
  | struct _ _ ih =>
    intro p hp
    rw [layout_struct, List.mem_flatMap] at hp
    obtain ⟨f, hf, hp⟩ := hp
    exact ih f hf p hp
  | union _ hd hs _ ihd ihs =>
    intro p hp
    rw [layout_union hd hs, List.mem_append] at hp
    exact hp.elim (ihd p) (ihs p)

theorem four_dvd_length_whole {pieces : List Piece} (h : ∀ p ∈ pieces, 4 ∣ p.octets.length) :
    4 ∣ (whole pieces).length := by
  induction pieces with
  | nil => simp
  | cons p ps ih =>
    rw [whole_cons, List.length_append]
    exact Nat.dvd_add (h p List.mem_cons_self) (ih fun q hq => h q (List.mem_cons_of_mem _ hq))

/-! ## Announced items -/

/-- The items of a conforming value are announced. -/
theorem Conforms.announced {shape : Shape} {v : Value} (h : shape.Conforms v) :
    Announced (shape.layout v) := by
  induction h with
  | void => exact .nil
  | int | uint | bool | enum | hyper | uhyper | absent => exact .fixed .nil
  | @octets extent =>
    obtain size | max := extent
    · exact .fixed .nil
    · exact .item .nil
  | text => exact .item .nil
  | @array elem extent items _ _ ih =>
    rw [layout]
    obtain size | max := extent
    · exact Announced.flatMap ih
    · exact .fixed (Announced.flatMap ih)
  | chain _ ih =>
    rw [layout]
    exact (Announced.flatMap fun v hv => .fixed (ih v hv)).append (.fixed .nil)
  | present _ ih => exact .fixed ih
  | struct _ _ ih =>
    rw [layout_struct]
    exact Announced.flatMap ih
  | union _ hd hs _ ihd ihs =>
    rw [layout_union hd hs]
    exact ihd.append ihs

/-! ## Least room -/

theorem minSizes_le {fields : List (String × Shape)} {record : Fields}
    (hnames : record.map (·.1) = fields.map (·.1))
    (h : ∀ p ∈ fields.zip record, p.1.2.minSize ≤ fixedSize (p.1.2.layout p.2.2)) :
    minSizes fields ≤ fixedSize ((fields.zip record).flatMap fun p => p.1.2.layout p.2.2) := by
  induction fields generalizing record with
  | nil => simp [minSizes]
  | cons f rest ih =>
    cases record with
    | nil => simp at hnames
    | cons r record =>
      have hf := h (f, r) List.mem_cons_self
      have hrest := ih (List.cons_eq_cons.mp hnames).2 fun p hp => h p (List.mem_cons_of_mem _ hp)
      rw [minSizes, List.zip_cons_cons, List.flatMap_cons, fixedSize_append]
      exact Nat.add_le_add hf hrest

/-- Discriminants by which arms are selected take a word. -/
theorem Conforms.four_le_of_armCode? {shape : Shape} {d : Value} {code : Int}
    (h : shape.Conforms d) (hd : d.armCode? = some code) : 4 ≤ fixedSize (shape.layout d) := by
  cases h with
  | int | uint | bool | enum => simp [layout, Piece.fixedSize]
  | _ => simp [Value.armCode?] at hd

/-- The pieces that are always in line take the room that the shape promises. -/
theorem Conforms.minSize_le {shape : Shape} {v : Value} (h : shape.Conforms v) :
    shape.minSize ≤ fixedSize (shape.layout v) := by
  induction h with
  | void => simp [minSize]
  | int | uint | bool | enum | hyper | uhyper | text | absent =>
    simp [minSize, layout, Piece.fixedSize]
  | @octets extent ddp data hn =>
    obtain size | max := extent
    · simp [minSize, layout, Piece.fixedSize, Extent.admits_fixed.mp hn]
    · simp [minSize, layout, Piece.fixedSize]
  | @array elem extent items hn _ ih =>
    obtain size | max := extent
    · have hlen := Extent.admits_fixed.mp hn
      simp only [minSize, layout, countPieces, List.nil_append, ← hlen]
      exact mul_le_fixedSize_flatMap ih
    · simp [minSize, layout, countPieces, Piece.fixedSize]
  | chain => simp [minSize, layout, Piece.fixedSize]
  | present => simp [minSize, layout, Piece.fixedSize]
  | struct hnames _ ih =>
    rw [minSize, layout_struct]
    exact minSizes_le hnames ih
  | union hc hd hs =>
    -- Of a union the shape promises no more than the word of the discriminant.
    simp only [minSize, layout_union hd hs, fixedSize_append]
    exact Nat.le_add_right_of_le (hc.four_le_of_armCode? hd)

end Shape

end NfsWire
