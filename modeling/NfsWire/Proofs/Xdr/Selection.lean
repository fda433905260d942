import NfsWire.Proofs.Xdr.RoundTrip

/-!
# Discriminants that select

A reader refuses a message for what the message holds, with one exception. If the discriminant of a
union is neither a number nor a flag nor a code, it selects no arm, and that is a mismatch between
what was read and the shape it was read by. It cannot be the message's fault: it is the shape that
is no good.

Shapes are good if each discriminant in them is of a kind that selects (`Shape.selects`). By such a
shape no reader ever reports a mismatch (`Shape.fault_ne_mismatch`), and the shapes in use are all
such (`knownShapes_selects`). The invariant says how a reader ends (`Reader.Suits`): with a result
of a known kind, or with a fault of the message. The kind of the result is there for the union,
which goes on with a code if it got a discriminant at all.
-/

namespace NfsWire

/-! ## How a reader ends -/

namespace Reader

/-- The reader ends with a result of which `P` holds, or it refuses the message for what it holds.
What it refuses is then not a mismatch with the shape. -/
def Suits {α : Type} (P : α → Prop) (x : Reader α) : Prop := ∀ ctx c,
  match x ctx c with
  | .ok a _ => P a
  | .error e _ => ∀ what, e.fault ≠ .mismatch what

section Suits

variable {α β : Type} {P : α → Prop} {Q : β → Prop} {x : Reader α}

theorem Suits.fault_ne_mismatch (h : x.Suits P) {ctx : ReadContext} {c c' : Cursor}
    {e : DecodeError} (herr : x ctx c = .error e c') (what : Mismatch) :
    e.fault ≠ .mismatch what := by
  have hx := h ctx c
  rw [herr] at hx
  exact hx what

theorem Suits.mono {P' : α → Prop} (h : x.Suits P) (hP : ∀ a, P a → P' a) : x.Suits P' := by
  intro ctx c
  have hx := h ctx c
  generalize x ctx c = result at hx
  cases result with
  | ok a m => exact hP a hx
  | error e m => exact hx

theorem Suits.pure {a : α} (h : P a) : (Pure.pure a : Reader α).Suits P := fun _ _ => h

theorem Suits.bind {f : α → Reader β} (hx : x.Suits P) (hf : ∀ a, P a → (f a).Suits Q) :
    (x >>= f).Suits Q := by
  intro ctx c
  have hfirst := hx ctx c
  show match EStateM.bind (x ctx) (fun a => f a ctx) c with
    | .ok b _ => Q b
    | .error e _ => ∀ what, e.fault ≠ .mismatch what
  unfold EStateM.bind
  generalize x ctx c = first at hfirst
  cases first with
  | ok a m => exact hf a hfirst ctx m
  | error e m => exact hfirst

/-- Of the result nothing is asked but what becomes of it. -/
theorem Suits.andThen {f : α → Reader β} (hx : x.Suits fun _ => True)
    (hf : ∀ a, (f a).Suits Q) : (x >>= f).Suits Q := hx.bind fun a _ => hf a

theorem Suits.within (h : x.Suits P) (segment : Segment) : (within segment x).Suits P :=
  fun _ c => h _ c

theorem suits_failAt (offset : Nat) {fault : Fault} (h : ∀ what, fault ≠ .mismatch what) :
    (failAt offset fault : Reader α).Suits P := fun _ _ => h

/-! ## Primitives -/

theorem suits_offset : offset.Suits fun _ => True := fun _ _ => trivial

theorem suits_take (n : Nat) : (take n).Suits fun _ => True := by
  intro ctx c
  unfold take
  dsimp only
  by_cases hshort : (c.rest.take n).length < n
  · rw [if_pos hshort]
    exact fun _ => nofun
  · rw [if_neg hshort]
    trivial

theorem suits_uint : uint.Suits fun _ => True :=
  .andThen (.andThen (suits_take 4) fun _ => .pure trivial) fun _ => .pure trivial

theorem suits_int : int.Suits fun _ => True := suits_uint.andThen fun _ => .pure trivial

theorem suits_uhyper : uhyper.Suits fun _ => True :=
  .andThen (.andThen (suits_take 8) fun _ => .pure trivial) fun _ => .pure trivial

theorem suits_hyper : hyper.Suits fun _ => True := suits_uhyper.andThen fun _ => .pure trivial

theorem suits_flag (what : Malformation) : (flag what).Suits fun _ => True := by
  refine suits_offset.andThen fun start => suits_uint.andThen fun w => ?_
  split
  · exact .pure trivial
  · split
    · exact .pure trivial
    · exact suits_failAt start fun _ => nofun

theorem suits_length (max : Option UInt32) : (length max).Suits fun _ => True := by
  refine suits_offset.andThen fun start => suits_uint.andThen fun n => ?_
  split
  · split
    · exact suits_failAt start fun _ => nofun
    · exact .pure trivial
  · exact .pure trivial

theorem suits_octets (n : Nat) : (octets n).Suits fun _ => True := by
  have hpadding : (padding n).Suits fun _ => True := by
    refine suits_offset.andThen fun start => (suits_take _).andThen fun zeros => ?_
    split
    · exact suits_failAt start fun _ => nofun
    · exact .pure trivial
  exact (suits_take n).andThen fun data => hpadding.andThen fun _ => .pure trivial

/-- An item whose chunk does not fit is a violation. -/
theorem suits_placed? (wrap : Bytes → Value) (ddp : Bool) (n : Nat) :
    (placed? wrap ddp n).Suits fun _ => True := by
  intro ctx c
  obtain hnone | ⟨chunk, m, hchunk, -⟩ | ⟨what, hrefused⟩ := placed?_cases wrap ddp n ctx c
  · rw [hnone]
    trivial
  · rw [hchunk]
    trivial
  · rw [hrefused]
    exact fun _ => nofun

theorem suits_item (wrap : Bytes → Value) (max : Option UInt32) (ddp : Bool) :
    (item wrap max ddp).Suits fun _ => True := by
  refine (suits_length max).andThen fun n => (suits_placed? wrap ddp _).andThen fun found => ?_
  cases found with
  | some v => exact .pure trivial
  | none => exact (suits_octets _).andThen fun data => .pure trivial

theorem judge_ne_mismatch {table : Table} {fixed strict : Bool} {code : Int32} (what : Mismatch) :
    judge table fixed strict code ≠ .error (.mismatch what) := by
  intro h
  unfold judge at h
  split at h
  · split at h <;> cases h
  · split at h
    · cases h
    · split at h <;> cases h

/-- What a code is judged to be, if it is let pass, is a code. -/
theorem suits_enum (table : Table) (fixed : Bool) :
    (enum table fixed).Suits fun d => d.armCode?.isSome := by
  have hread : (MonadReader.read : Reader ReadContext).Suits fun _ => True := fun _ _ => trivial
  refine suits_offset.andThen fun start => suits_int.andThen fun code =>
    hread.andThen fun ctx => ?_
  cases hjudge : judge table fixed ctx.strict code with
  | ok v =>
    obtain ⟨rfl, -⟩ := judge_ok_iff.mp hjudge
    exact .pure rfl
  | error fault =>
    refine suits_failAt start fun what hfault => ?_
    rw [hfault] at hjudge
    exact judge_ne_mismatch what hjudge

theorem suits_room (count minSize : Nat) : (room count minSize).Suits fun _ => True := by
  intro ctx c
  unfold room
  dsimp only
  by_cases hshort : c.rest.length < need count minSize
  · rw [if_pos hshort]
    exact fun _ => nofun
  · rw [if_neg hshort]
    trivial

theorem Suits.repeated (h : x.Suits fun _ => True) (i count : Nat) :
    (repeated x i count).Suits fun _ => True := by
  induction count generalizing i with
  | zero => exact .pure trivial
  | succ count ih =>
    exact (h.within _).andThen fun a => (ih (i + 1)).andThen fun rest => .pure trivial

theorem Suits.chain (h : x.Suits fun _ => True) : (chain x).Suits fun _ => True := by
  have hannounced (fuel i : Nat) : (announced x fuel i).Suits fun _ => True := by
    induction fuel generalizing i with
    | zero => exact .pure trivial
    | succ fuel ih =>
      refine (suits_flag _).andThen fun more => ?_
      cases more with
      | true => exact (h.within _).andThen fun a => (ih (i + 1)).andThen fun rest => .pure trivial
      | false => exact .pure trivial
  exact fun ctx c => hannounced _ 0 ctx c

end Suits

end Reader

/-! ## Shapes -/

namespace Shape

open Reader

/-- A value of the shape is a number, a flag or a code. -/
def isSelector : Shape → Bool
  | .int | .uint | .bool | .enum .. => true
  | _ => false

mutual

/-- The discriminant of each union within the shape is of a kind that selects. -/
def selects : Shape → Bool
  | .array elem _ | .chain elem => elem.selects
  | .optional inner => inner.selects
  | .struct fields => selectsFields fields
  | .union disc arms fallback => disc.isSelector && selectsArms arms && selectsFallback fallback
  | _ => true

def selectsFields : List (String × Shape) → Bool
  | [] => true
  | (_, s) :: rest => s.selects && selectsFields rest

def selectsArms : List (Int × String × Shape) → Bool
  | [] => true
  | (_, _, s) :: rest => s.selects && selectsArms rest

def selectsFallback : Option (String × Shape) → Bool
  | none => true
  | some (_, s) => s.selects

end

theorem selects_struct {fields : List (String × Shape)} :
    (Shape.struct fields).selects = true ↔ ∀ f ∈ fields, f.2.selects = true := by
  rw [selects]
  induction fields with
  | nil => simp [selectsFields]
  | cons f rest ih => simp [selectsFields, ih]

theorem selects_union {disc : Shape} {arms : List (Int × String × Shape)}
    {fallback : Option (String × Shape)} :
    (Shape.union disc arms fallback).selects = true ↔ disc.isSelector = true ∧
      (∀ a ∈ arms, a.2.2.selects = true) ∧ ∀ f ∈ fallback, f.2.selects = true := by
  have harms : selectsArms arms = true ↔ ∀ a ∈ arms, a.2.2.selects = true := by
    induction arms with
    | nil => simp [selectsArms]
    | cons a rest ih => simp [selectsArms, ih]
  have hfallback : selectsFallback fallback = true ↔ ∀ f ∈ fallback, f.2.selects = true := by
    cases fallback with
    | none => simp [selectsFallback]
    | some f => simp [selectsFallback]
  simp [selects, harms, hfallback, and_assoc]

/-- What is read for a discriminant of such a kind selects, though perhaps no arm of the union. -/
theorem suits_selector {disc : Shape} (h : disc.isSelector = true) :
    disc.decode.Suits fun d => d.armCode?.isSome := by
  cases disc with
  | int => exact suits_int.andThen fun v => .pure rfl
  | uint => exact suits_uint.andThen fun v => .pure rfl
  | bool => exact (suits_flag _).andThen fun b => .pure rfl
  | enum table fixed => exact suits_enum table fixed
  | _ => cases h

theorem suits_decodeFields {fields : List (String × Shape)}
    (h : ∀ f ∈ fields, f.2.decode.Suits fun _ => True) :
    (decodeFields fields).Suits fun _ => True := by
  induction fields with
  | nil => exact .pure trivial
  | cons f rest ih =>
    have hrest := ih fun g hg => h g (List.mem_cons_of_mem _ hg)
    exact ((h f List.mem_cons_self).within _).andThen fun v =>
      hrest.andThen fun record => .pure trivial

theorem suits_decodeArm {arms : List (Int × String × Shape)} {fallback : Option (String × Shape)}
    (harms : ∀ a ∈ arms, a.2.2.decode.Suits fun _ => True)
    (hfallback : ∀ f ∈ fallback, f.2.decode.Suits fun _ => True) (start : Nat) (code : Int) :
    (decodeArm arms code (decodeFallback fallback start code)).Suits fun _ => True := by
  induction arms with
  | nil =>
    cases fallback with
    | none => exact suits_failAt start fun _ => nofun
    | some f => exact ((hfallback f rfl).within _).andThen fun v => .pure trivial
  | cons a rest ih =>
    rw [decodeArm]
    split
    · exact ((harms a List.mem_cons_self).within _).andThen fun v => .pure trivial
    · exact ih fun b hb => harms b (List.mem_cons_of_mem _ hb)

theorem suits_decode {shape : Shape} (h : shape.selects = true) :
    shape.decode.Suits fun _ => True := by
  induction shape with
  | void => exact .pure trivial
  | int => exact suits_int.andThen fun v => .pure trivial
  | uint => exact suits_uint.andThen fun v => .pure trivial
  | hyper => exact suits_hyper.andThen fun v => .pure trivial
  | uhyper => exact suits_uhyper.andThen fun v => .pure trivial
  | bool => exact (suits_flag _).andThen fun b => .pure trivial
  | enum table fixed =>
    rw [decode]
    exact (suits_enum table fixed).mono fun _ _ => trivial
  | octets extent ddp =>
    obtain size | max := extent
    · exact (suits_octets _).andThen fun data => .pure trivial
    · exact suits_item _ max ddp
  | text max ddp => exact suits_item _ max ddp
  | array elem extent ih =>
    have hitems (n : UInt32) : (do
        room n.toNat elem.minSize
        return .array (← repeated elem.decode 0 n.toNat) : Reader Value).Suits fun _ => True :=
      (suits_room n.toNat elem.minSize).andThen fun _ =>
        ((ih h).repeated 0 n.toNat).andThen fun items => .pure trivial
    obtain size | max := extent
    · exact hitems size
    · exact (suits_length max).andThen hitems
  | chain elem ih => exact (ih h).chain.andThen fun items => .pure trivial
  | optional inner ih =>
    refine (suits_flag _).andThen fun present => ?_
    cases present with
    | true => exact (ih h).andThen fun v => .pure trivial
    | false => exact .pure trivial
  | struct fields ih =>
    have hfields := selects_struct.mp h
    exact (suits_decodeFields fun f hf => ih f hf (hfields f hf)).andThen fun r => .pure trivial
  | union disc arms fallback _ iha ihf =>
    obtain ⟨hdisc, harms, hfallback⟩ := selects_union.mp h
    refine suits_offset.andThen fun start => (suits_selector hdisc).bind fun d hd => ?_
    obtain ⟨code, hcode⟩ := Option.isSome_iff_exists.mp hd
    rw [hcode]
    exact (suits_decodeArm (fun a ha => iha a ha (harms a ha))
      (fun f hf => ihf f hf (hfallback f hf)) start code).andThen fun arm => .pure trivial

/-- **By a shape in which all discriminants select, a message is refused for what it holds.** -/
theorem fault_ne_mismatch {shape : Shape} (h : shape.selects = true) {ctx : ReadContext}
    {c c' : Cursor} {e : DecodeError} (herr : shape.decode ctx c = .error e c')
    (what : Mismatch) : e.fault ≠ .mismatch what :=
  (suits_decode h).fault_ne_mismatch herr what

end Shape

theorem DecodeError.fault_inProtocol (p : Protocol) (e : DecodeError) :
    (e.inProtocol p).fault = e.fault := by
  unfold DecodeError.inProtocol
  split
  · rfl
  · rfl

theorem DecodeError.path_inProtocol (p : Protocol) (e : DecodeError) :
    (e.inProtocol p).path = e.path := by
  unfold DecodeError.inProtocol
  split
  · rfl
  · rfl

theorem DecodeError.offset_inProtocol (p : Protocol) (e : DecodeError) :
    (e.inProtocol p).offset = e.offset := by
  unfold DecodeError.inProtocol
  split
  · rfl
  · rfl

/-- All discriminants of the shapes in use select. -/
theorem knownShapes_selects : ∀ shape ∈ knownShapes, shape.selects = true := by
  decide +kernel

end NfsWire
