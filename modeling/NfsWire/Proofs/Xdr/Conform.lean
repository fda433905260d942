import NfsWire.Xdr.Shape
import NfsWire.Xdr.Value

/-!
# Values that have a shape

What it means, without any reading or writing, that a value has a shape: its fields are those of
the shape in their order, its codes carry the names of their table, its lengths are within their
maxima, and each union holds the arm that its discriminant selects. Nothing in it is missing.

`Shape.distinctNames` is the one condition on the shape itself. A writer looks the fields of a
structure up by name, so of two fields with one name it would write the first one twice.

Shapes nest through lists, so plain induction does not see the parts. `Shape.recParts` does, and
all later inductions over shapes use it.
-/

namespace NfsWire

namespace Shape

/-! ## Induction over shapes -/

/-- Induction with a hypothesis for every field, every arm and the default arm. -/
@[elab_as_elim, induction_eliminator]
theorem recParts {motive : Shape → Prop}
    (void : motive .void) (int : motive .int) (uint : motive .uint) (hyper : motive .hyper)
    (uhyper : motive .uhyper) (bool : motive .bool)
    (enum : ∀ table fixed, motive (.enum table fixed))
    (octets : ∀ extent ddp, motive (.octets extent ddp))
    (text : ∀ max ddp, motive (.text max ddp))
    (array : ∀ elem extent, motive elem → motive (.array elem extent))
    (chain : ∀ elem, motive elem → motive (.chain elem))
    (optional : ∀ inner, motive inner → motive (.optional inner))
    (struct : ∀ fields, (∀ f ∈ fields, motive f.2) → motive (.struct fields))
    (union : ∀ disc arms fallback, motive disc → (∀ a ∈ arms, motive a.2.2) →
      (∀ f ∈ fallback, motive f.2) → motive (.union disc arms fallback))
    (shape : Shape) : motive shape := by
  have cons {β : Type} {P : β → Prop} (b : β) (bs : List β) (hb : P b) (hbs : ∀ x ∈ bs, P x) :
      ∀ x ∈ b :: bs, P x := List.forall_mem_cons.mpr ⟨hb, hbs⟩
  -- The recursor wants a motive for each kind of list; all of them say the same of each part.
  exact @Shape.rec motive (fun fields => ∀ f ∈ fields, motive f.2)
    (fun arms => ∀ a ∈ arms, motive a.2.2) (fun fallback => ∀ f ∈ fallback, motive f.2)
    (fun field => motive field.2) (fun arm => motive arm.2.2)
    void int uint hyper uhyper bool enum octets text array chain optional struct union
    (by simp) cons (by simp) cons (by simp) (by simp) (fun _ _ h => h) (fun _ _ h => h) shape

/-! ## The arm of a union -/

theorem arm?_nil (fallback : Option (String × Shape)) (code : Int) :
    arm? [] fallback code = fallback := rfl

theorem arm?_cons (c code : Int) (arm : String × Shape) (rest : List (Int × String × Shape))
    (fallback : Option (String × Shape)) :
    arm? ((c, arm) :: rest) fallback code =
      if c = code then some arm else arm? rest fallback code := by
  unfold arm?
  by_cases h : c = code <;> simp [h]

/-- What holds of all arms holds of the one that a discriminant selects. -/
theorem of_arm? {motive : Shape → Prop} {arms : List (Int × String × Shape)}
    {fallback : Option (String × Shape)} {code : Int} {name : String} {s : Shape}
    (harms : ∀ a ∈ arms, motive a.2.2) (hfallback : ∀ f ∈ fallback, motive f.2)
    (h : arm? arms fallback code = some (name, s)) : motive s := by
  induction arms with
  | nil => exact hfallback (name, s) (by rw [arm?_nil] at h; exact h)
  | cons a rest ih =>
    obtain ⟨c, arm⟩ := a
    rw [arm?_cons] at h
    split at h
    · cases h
      exact harms (c, name, s) List.mem_cons_self
    · exact ih (fun a ha => harms a (List.mem_cons_of_mem _ ha)) h

/-! ## Names of fields -/

mutual

/-- No structure within the shape has two fields of one name. -/
def distinctNames : Shape → Bool
  | .array elem _ | .chain elem => elem.distinctNames
  | .optional inner => inner.distinctNames
  | .struct fields => decide (fields.map (·.1)).Nodup && distinctNamesFields fields
  | .union disc arms fallback =>
    disc.distinctNames && distinctNamesArms arms && distinctNamesFallback fallback
  | _ => true

def distinctNamesFields : List (String × Shape) → Bool
  | [] => true
  | (_, s) :: rest => s.distinctNames && distinctNamesFields rest

def distinctNamesArms : List (Int × String × Shape) → Bool
  | [] => true
  | (_, _, s) :: rest => s.distinctNames && distinctNamesArms rest

def distinctNamesFallback : Option (String × Shape) → Bool
  | none => true
  | some (_, s) => s.distinctNames

end

theorem distinctNamesFields_iff {fields : List (String × Shape)} :
    distinctNamesFields fields = true ↔ ∀ f ∈ fields, f.2.distinctNames = true := by
  induction fields with
  | nil => simp [distinctNamesFields]
  | cons f rest ih => simp [distinctNamesFields, ih]

theorem distinctNamesArms_iff {arms : List (Int × String × Shape)} :
    distinctNamesArms arms = true ↔ ∀ a ∈ arms, a.2.2.distinctNames = true := by
  induction arms with
  | nil => simp [distinctNamesArms]
  | cons a rest ih => simp [distinctNamesArms, ih]

theorem distinctNamesFallback_iff {fallback : Option (String × Shape)} :
    distinctNamesFallback fallback = true ↔ ∀ f ∈ fallback, f.2.distinctNames = true := by
  cases fallback with
  | none => simp [distinctNamesFallback]
  | some f => simp [distinctNamesFallback]

theorem distinctNames_struct {fields : List (String × Shape)} :
    (Shape.struct fields).distinctNames = true ↔
      (fields.map (·.1)).Nodup ∧ ∀ f ∈ fields, f.2.distinctNames = true := by
  simp [distinctNames, distinctNamesFields_iff]

theorem distinctNames_union {disc : Shape} {arms : List (Int × String × Shape)}
    {fallback : Option (String × Shape)} :
    (Shape.union disc arms fallback).distinctNames = true ↔
      disc.distinctNames = true ∧ (∀ a ∈ arms, a.2.2.distinctNames = true) ∧
        ∀ f ∈ fallback, f.2.distinctNames = true := by
  simp [distinctNames, distinctNamesArms_iff, distinctNamesFallback_iff, and_assoc]

end Shape

/-! ## Conforming values -/

/-- A length that a peer may announce: the fixed one, or one that a word can say and that is
within the maximum. -/
def Extent.Admits : Extent → Nat → Prop
  | .fixed size, n => n = size.toNat
  | .variable max, n => n < UInt32.size ∧ ∀ m ∈ max, n ≤ m.toNat

theorem Extent.admits_fixed {size : UInt32} {n : Nat} :
    (Extent.fixed size).Admits n ↔ n = size.toNat := Iff.rfl

theorem Extent.admits_variable {max : Option UInt32} {n : Nat} :
    (Extent.variable max).Admits n ↔ n < UInt32.size ∧ ∀ m ∈ max, n ≤ m.toNat := Iff.rfl

/-- A code that the table lists and lets a peer send. -/
def Table.Usable (table : Table) (code : Int32) : Prop :=
  ∃ e, table.entry? code = some e ∧ e.stability ≠ .notToBeUsed

namespace Shape

/-- The value has the shape. -/
inductive Conforms : Shape → Value → Prop where
  | void : Conforms .void .void
  | int (v : Int32) : Conforms .int (.int v)
  | uint (v : UInt32) : Conforms .uint (.uint v)
  | hyper (v : Int64) : Conforms .hyper (.hyper v)
  | uhyper (v : UInt64) : Conforms .uhyper (.uhyper v)
  | bool (b : Bool) : Conforms .bool (.bool b)
  | enum {table : Table} {fixed : Bool} {code : Int32} :
      (fixed = true → table.Usable code) →
      Conforms (.enum table fixed) (.enum code (table.name? code))
  | octets {extent : Extent} {ddp : Bool} {data : Bytes} :
      extent.Admits data.length → Conforms (.octets extent ddp) (.octets data)
  | text {max : Option UInt32} {ddp : Bool} {data : Bytes} :
      (Extent.variable max).Admits data.length → Conforms (.text max ddp) (.text data)
  | array {elem : Shape} {extent : Extent} {items : List Value} :
      extent.Admits items.length → (∀ v ∈ items, Conforms elem v) →
      Conforms (.array elem extent) (.array items)
  | chain {elem : Shape} {items : List Value} :
      (∀ v ∈ items, Conforms elem v) → Conforms (.chain elem) (.array items)
  | absent {inner : Shape} : Conforms (.optional inner) (.optional none)
  | present {inner : Shape} {v : Value} :
      Conforms inner v → Conforms (.optional inner) (.optional (some v))
  /-- The record has exactly the fields of the shape, in their order. -/
  | struct {fields : List (String × Shape)} {record : Fields} :
      record.map (·.1) = fields.map (·.1) →
      (∀ p ∈ fields.zip record, Conforms p.1.2 p.2.2) →
      Conforms (.struct fields) (.struct record)
  /-- The discriminant selects the arm. -/
  | union {disc s : Shape} {arms : List (Int × String × Shape)}
      {fallback : Option (String × Shape)} {d v : Value} {arm : String} {code : Int} :
      Conforms disc d → d.armCode? = some code → arm? arms fallback code = some (arm, s) →
      Conforms s v → Conforms (.union disc arms fallback) (.union d arm v)

end Shape

/-! ## Named codes -/

namespace Value

mutual

/-- Every code in the value carries a name. In strict reading there are no others. -/
def named : Value → Bool
  | .enum _ name => name.isSome
  | .array items => namedItems items
  | .struct fields => namedFields fields
  | .union disc _ value => disc.named && value.named
  | .optional (some v) => v.named
  | _ => true

def namedItems : List Value → Bool
  | [] => true
  | v :: rest => v.named && namedItems rest

def namedFields : List (String × Value) → Bool
  | [] => true
  | (_, v) :: rest => v.named && namedFields rest

end

theorem named_array {items : List Value} :
    (Value.array items).named = true ↔ ∀ v ∈ items, v.named = true := by
  rw [named]
  induction items with
  | nil => simp [namedItems]
  | cons v rest ih => simp [namedItems, ih]

theorem named_struct {record : Fields} :
    (Value.struct record).named = true ↔ ∀ f ∈ record, f.2.named = true := by
  rw [named]
  induction record with
  | nil => simp [namedFields]
  | cons f rest ih => simp [namedFields, ih]

theorem named_union {disc value : Value} {arm : String} :
    (Value.union disc arm value).named = true ↔ disc.named = true ∧ value.named = true := by
  rw [named, Bool.and_eq_true]

end Value

end NfsWire
