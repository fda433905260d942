import Mathlib.Data.Set.List
import NfsWire.Proofs.Xdr.Layout

/-!
# The parts of a value that has a shape

`Shape.Conforms` says how a value of a shape is put together. Here it is taken apart, with one
equivalence for each kind of shape, so that a value of a known shape can be followed from the
outside to its leaves. There it is seen to be the tree of some fields, and of no others.

The code that selects an arm of a union is a word on the wire (`codeValue`). A union over codes is
the word and then the octets of the arm (`whole_layout_union`).
-/

namespace NfsWire.Shape

variable {v : Value}

/-! ## Leaves -/

theorem conforms_uint : Shape.uint.Conforms v ↔ ∃ w, v = .uint w := by
  constructor
  · intro h
    cases h with
    | uint w => exact ⟨w, rfl⟩
  · rintro ⟨w, rfl⟩
    exact .uint w

theorem conforms_uhyper : Shape.uhyper.Conforms v ↔ ∃ w, v = .uhyper w := by
  constructor
  · intro h
    cases h with
    | uhyper w => exact ⟨w, rfl⟩
  · rintro ⟨w, rfl⟩
    exact .uhyper w

theorem conforms_void : Shape.void.Conforms v ↔ v = .void := by
  constructor
  · intro h
    cases h with
    | void => rfl
  · rintro rfl
    exact .void

theorem conforms_enum {table : Table} {fixed : Bool} :
    (Shape.enum table fixed).Conforms v ↔
      ∃ code, v = .enum code (table.name? code) ∧ (fixed = true → table.Usable code) := by
  constructor
  · intro h
    cases h with
    | enum husable => exact ⟨_, rfl, husable⟩
  · rintro ⟨code, rfl, husable⟩
    exact .enum husable

theorem conforms_octets {extent : Extent} {ddp : Bool} :
    (Shape.octets extent ddp).Conforms v ↔
      ∃ data, v = .octets data ∧ extent.Admits data.length := by
  constructor
  · intro h
    cases h with
    | octets hn => exact ⟨_, rfl, hn⟩
  · rintro ⟨data, rfl, hn⟩
    exact .octets hn

/-! ## Sequences -/

section Sequences

variable {elem : Shape}

theorem conforms_array {extent : Extent} :
    (Shape.array elem extent).Conforms v ↔
      ∃ items, v = .array items ∧ extent.Admits items.length ∧ ∀ x ∈ items, elem.Conforms x := by
  constructor
  · intro h
    cases h with
    | array hn hitems => exact ⟨_, rfl, hn, hitems⟩
  · rintro ⟨items, rfl, hn, hitems⟩
    exact .array hn hitems

theorem conforms_chain :
    (Shape.chain elem).Conforms v ↔ ∃ items, v = .array items ∧ ∀ x ∈ items, elem.Conforms x := by
  constructor
  · intro h
    cases h with
    | chain hitems => exact ⟨_, rfl, hitems⟩
  · rintro ⟨items, rfl, hitems⟩
    exact .chain hitems

theorem conforms_optional :
    (Shape.optional elem).Conforms v ↔
      v = .optional none ∨ ∃ x, v = .optional (some x) ∧ elem.Conforms x := by
  constructor
  · intro h
    cases h with
    | absent => exact .inl rfl
    | present hx => exact .inr ⟨_, rfl, hx⟩
  · rintro (rfl | ⟨x, rfl, hx⟩)
    · exact .absent
    · exact .present hx

/-- Elements that are each the tree of something are the trees of a list. -/
theorem exists_map_of_forall {β : Type} {value : β → Value} {p : β → Prop} {items : List Value}
    (h : ∀ x ∈ items, ∃ b, p b ∧ x = value b) :
    ∃ bs : List β, (∀ b ∈ bs, p b) ∧ items = bs.map value := by
  have hrange : items ∈ Set.range (List.map fun b : Subtype p => value b.1) := by
    rw [Set.range_list_map]
    intro x hx
    obtain ⟨b, hb, rfl⟩ := h x hx
    exact ⟨⟨b, hb⟩, rfl⟩
  obtain ⟨bs, rfl⟩ := hrange
  exact ⟨bs.map Subtype.val, List.forall_mem_map.mpr fun b _ => b.2, by simp⟩

end Sequences

/-! ## Structures and unions -/

/-- The record has these fields, in their order. -/
def FieldsConform (fields : List (String × Shape)) (record : Fields) : Prop :=
  record.map (·.1) = fields.map (·.1) ∧ ∀ p ∈ fields.zip record, p.1.2.Conforms p.2.2

section Structures

variable {fields : List (String × Shape)} {record : Fields}

theorem conforms_struct :
    (Shape.struct fields).Conforms v ↔
      ∃ record, v = .struct record ∧ FieldsConform fields record := by
  constructor
  · intro h
    cases h with
    | struct hnames hparts => exact ⟨_, rfl, hnames, hparts⟩
  · rintro ⟨record, rfl, hnames, hparts⟩
    exact .struct hnames hparts

theorem fieldsConform_nil : FieldsConform [] record ↔ record = [] := by
  simp [FieldsConform]

theorem fieldsConform_cons {name : String} {s : Shape} :
    FieldsConform ((name, s) :: fields) record ↔
      ∃ x rest, record = (name, x) :: rest ∧ s.Conforms x ∧ FieldsConform fields rest := by
  cases record with
  | nil => simp [FieldsConform]
  | cons r rest =>
    obtain ⟨name', x⟩ := r
    simp only [FieldsConform, List.map_cons, List.cons.injEq, List.zip_cons_cons,
      List.forall_mem_cons, Prod.mk.injEq]
    constructor
    · rintro ⟨⟨rfl, hnames⟩, hx, hparts⟩
      exact ⟨x, rest, ⟨⟨rfl, rfl⟩, rfl⟩, hx, hnames, hparts⟩
    · rintro ⟨_, _, ⟨⟨rfl, rfl⟩, rfl⟩, hx, hnames, hparts⟩
      exact ⟨⟨rfl, hnames⟩, hx, hparts⟩

end Structures

theorem conforms_union {disc : Shape} {arms : List (Int × String × Shape)}
    {fallback : Option (String × Shape)} :
    (Shape.union disc arms fallback).Conforms v ↔
      ∃ d code arm s x, v = .union d arm x ∧ disc.Conforms d ∧ d.armCode? = some code ∧
        arm? arms fallback code = some (arm, s) ∧ s.Conforms x := by
  constructor
  · intro h
    cases h with
    | union hd hcode harm hx => exact ⟨_, _, _, _, _, rfl, hd, hcode, harm, hx⟩
  · rintro ⟨d, code, arm, s, x, rfl, hd, hcode, harm, hx⟩
    exact .union hd hcode harm hx

/-! ## Codes -/

/-- The tree of a code: the word, and its name if it has one. -/
def codeValue (table : Table) (w : UInt32) : Value := .enum w.toInt32 (table.name? w.toInt32)

theorem conforms_code {table : Table} :
    (Shape.code table).Conforms v ↔ ∃ w, v = codeValue table w := by
  rw [Shape.code, conforms_enum]
  constructor
  · rintro ⟨code, rfl, -⟩
    exact ⟨code.toUInt32, by simp [codeValue]⟩
  · rintro ⟨w, rfl⟩
    exact ⟨_, rfl, nofun⟩

theorem toUInt32?_codeValue (table : Table) (w : UInt32) :
    (codeValue table w).toUInt32? = some w := by
  simp [codeValue, Value.toUInt32?]

/-- Words that are the same number with a sign are the same. -/
theorem eq_of_toInt_eq {w k : UInt32} (h : w.toInt32.toInt = k.toInt32.toInt) : w = k := by
  have hbits : w.toInt32 = k.toInt32 := Int32.toInt_inj.mp h
  simpa using congrArg Int32.toUInt32 hbits

/-- The code that selects an arm is the one on the wire. -/
theorem eq_of_armCode? {table : Table} {w k : UInt32} {code : Int}
    (hcode : (codeValue table w).armCode? = some code) (hk : k.toInt32.toInt = code) : w = k :=
  eq_of_toInt_eq ((Option.some.inj hcode).trans hk.symm)

/-- A union over two codes. -/
theorem conforms_either {table : Table} {k j : UInt32} {name name' : String} {s s' : Shape}
    (h : (Shape.union (Shape.code table)
      [(k.toInt32.toInt, name, s), (j.toInt32.toInt, name', s')] none).Conforms v) :
    (∃ x, v = .union (codeValue table k) name x ∧ s.Conforms x) ∨
      ∃ x, v = .union (codeValue table j) name' x ∧ s'.Conforms x := by
  obtain ⟨d, code, arm, t, x, rfl, hd, hcode, harm, hx⟩ := conforms_union.mp h
  obtain ⟨w, rfl⟩ := conforms_code.mp hd
  rw [arm?_cons, arm?_cons, arm?_nil] at harm
  split at harm
  next hk =>
    cases harm
    rw [eq_of_armCode? hcode hk]
    exact .inl ⟨x, rfl, hx⟩
  next =>
    split at harm
    next hj =>
      cases harm
      rw [eq_of_armCode? hcode hj]
      exact .inr ⟨x, rfl, hx⟩
    next => cases harm

theorem whole_layout_code (table : Table) (w : UInt32) :
    whole ((Shape.code table).layout (codeValue table w)) = Bytes.word w := by
  simp [Shape.code, codeValue, layout, Piece.octets]

/-- The octets of the arm that the code selects stand behind the code. -/
theorem whole_layout_union {table : Table} {arms : List (Int × String × Shape)}
    {fallback : Option (String × Shape)} {w : UInt32} {arm arm' : String} {s : Shape}
    (h : arm? arms fallback w.toInt32.toInt = some (arm, s)) :
    whole ((Shape.union (Shape.code table) arms fallback).layout
      (.union (codeValue table w) arm' v)) = Bytes.word w ++ whole (s.layout v) := by
  rw [layout_union rfl h, whole_append, whole_layout_code]

end NfsWire.Shape
