import NfsWire.Proofs.Xdr.Trace

/-!
# What reading is made of

Every reader is put together from a few primitives: so many octets are taken, an item is looked for
among the chunks, the room for an array is checked, a fault is reported. `Primitives` makes them a
parameter, and `Primitives.decode` reads a value with whatever they are. With the primitives of
`Reader` it is the reader that everything else is about (`Reader.decode_primitives`).

Readers with other primitives can then be compared with it. A relation between two kinds of readers
that holds of the primitives, and passes to what is done one after the other, holds of the two
readers of every shape (`Related.decode`). The two loops are left to whoever compares: the room for
an array is worth nothing without its elements, and a chain is as long as the message lets it be.
-/

namespace NfsWire

/-- The steps that reading is made of. -/
structure Primitives (m : Type → Type) where
  /-- Whether codes that their table does not name are refused. -/
  strict : m Bool
  /-- Read a part of the field being read. -/
  within {α : Type} : Segment → m α → m α
  /-- Stop with a fault at a given offset. -/
  failAt {α : Type} : (offset : Nat) → Fault → m α
  /-- Octets of the message before the cursor. -/
  offset : m Nat
  /-- So many octets. -/
  take : Nat → m Bytes
  /-- An item of so many octets that was taken out of the message, if it was. -/
  placed? : (wrap : Bytes → Value) → (ddp : Bool) → Nat → m (Option Value)
  /-- Refuse an array whose elements cannot all be there. -/
  room : (count minSize : Nat) → m Unit
  /-- A bound on the flags that the rest of the message holds. -/
  flags : m Nat
  /-- What comes of a chain that has more flags than that. -/
  spent {α : Type} : m (List α)

/-- The primitives of the readers. -/
def Reader.primitives : Primitives Reader where
  strict := fun ctx c => .ok ctx.strict c
  within := Reader.within
  failAt := Reader.failAt
  offset := Reader.offset
  take := Reader.take
  placed? := Reader.placed?
  room := Reader.room
  flags := fun _ c => .ok (c.rest.length / 4 + 1) c
  spent := return []

/-! ## Reading -/

namespace Primitives

variable {m : Type → Type} [Monad m] (k : Primitives m) {α : Type}

def number (width : Nat) : m Nat := do
  return Bytes.toNat (← k.take width)

def uint : m UInt32 := do return UInt32.ofNat (← k.number 4)

def int : m Int32 := do return (← k.uint).toInt32

def uhyper : m UInt64 := do return UInt64.ofNat (← k.number 8)

def hyper : m Int64 := do return (← k.uhyper).toInt64

/-- A word that is 0 or 1. -/
def flag (what : Malformation) : m Bool := do
  let start ← k.offset
  let w ← k.uint
  if w = 0 then return false
  else if w = 1 then return true
  else k.failAt start (.malformed what)

/-- The length of what follows, within its maximum. -/
def length (max : Option UInt32) : m UInt32 := do
  let start ← k.offset
  let n ← k.uint
  match max with
  | some max => if max < n then k.failAt start (.tooLong n max) else return n
  | none => return n

/-- The number of elements of an array. -/
def count : Extent → m UInt32
  | .fixed size => pure size
  | .variable max => k.length max

/-- The zero octets that follow `n` octets of data. -/
def padding (n : Nat) : m Unit := do
  let start ← k.offset
  let zeros ← k.take (Bytes.padding n)
  if zeros.any (· ≠ 0) then k.failAt start (.malformed .padding)

/-- `n` octets of data and their padding. -/
def octets (n : Nat) : m Bytes := do
  let data ← k.take n
  k.padding n
  return data

/-- Opaque data or text with its length in front, in line or in a chunk. -/
def item (wrap : Bytes → Value) (max : Option UInt32) (ddp : Bool) : m Value := do
  let n := (← k.length max).toNat
  match ← k.placed? wrap ddp n with
  | some v => return v
  | none => return wrap (← k.octets n)

/-- A code of `table`, refused at the start of its word. -/
def enum (table : Table) (fixed : Bool) : m Value := do
  let start ← k.offset
  let code ← k.int
  match Reader.judge table fixed (← k.strict) code with
  | .ok v => return v
  | .error fault => k.failAt start fault

/-- `count` elements, the first of which has index `i`. -/
def repeated (elem : m α) : (i count : Nat) → m (List α)
  | _, 0 => return []
  | i, count + 1 => do
    let x ← k.within (.index i) elem
    return x :: (← repeated elem (i + 1) count)

/-- The elements of an array, if there is room for them. -/
def elements (minSize : Nat) (elem : m α) (count : Nat) : m (List α) := do
  k.room count minSize
  k.repeated elem 0 count

/-- Elements announced by a flag each, the first of which has index `i`. -/
def announced (elem : m α) : (fuel i : Nat) → m (List α)
  | 0, _ => k.spent
  | fuel + 1, i => do
    if ← k.flag .optionalFlag then
      let x ← k.within (.index i) elem
      return x :: (← announced elem fuel (i + 1))
    else return []

/-- Elements announced by a flag each. -/
def chain (elem : m α) : m (List α) := do
  k.announced elem (← k.flags) 0

mutual

/-- Read a value of the shape. -/
def decode : Shape → m Value
  | .void => return .void
  | .int => return .int (← k.int)
  | .uint => return .uint (← k.uint)
  | .hyper => return .hyper (← k.hyper)
  | .uhyper => return .uhyper (← k.uhyper)
  | .bool => return .bool (← k.flag .boolean)
  | .enum table fixed => k.enum table fixed
  | .octets (.fixed n) _ => return .octets (← k.octets n.toNat)
  | .octets (.variable max) ddp => k.item .octets max ddp
  | .text max ddp => k.item .text max ddp
  | .array elem extent => do
    let n ← k.count extent
    return .array (← k.elements elem.minSize (decode elem) n.toNat)
  | .chain elem => return .array (← k.chain (decode elem))
  | .optional inner => do
    if ← k.flag .optionalFlag then return .optional (some (← decode inner))
    else return .optional none
  | .struct fields => return .struct (← decodeFields fields)
  | .union disc arms fallback => do
    let start ← k.offset
    let d ← decode disc
    match d.armCode? with
    | none => k.failAt start (.mismatch .discriminant)
    | some code =>
      let (arm, v) ← decodeArm arms code (decodeFallback fallback start code)
      return .union d arm v

/-- Read the fields of a structure in order. -/
def decodeFields : List (String × Shape) → m (List (String × Value))
  | [] => return []
  | (name, s) :: rest => do
    let v ← k.within (.name name) (decode s)
    return (name, v) :: (← decodeFields rest)

/-- Read the first arm of that code. -/
def decodeArm : List (Int × String × Shape) → (code : Int) → (otherwise : m (String × Value)) →
    m (String × Value)
  | [], _, otherwise => otherwise
  | (c, name, s) :: rest, code, otherwise =>
    if c = code then return (name, ← k.within (.name name) (decode s))
    else decodeArm rest code otherwise

/-- Read the default arm, or refuse the discriminant that has no arm. -/
def decodeFallback : Option (String × Shape) → (start : Nat) → (code : Int) → m (String × Value)
  | none, start, code => k.failAt start (.noArm code)
  | some (name, s), _, _ => return (name, ← k.within (.name name) (decode s))

end

end Primitives

/-! ## The readers themselves -/

namespace Reader

variable {α : Type}

theorem repeated_primitives (x : Reader α) (i count : Nat) :
    primitives.repeated x i count = repeated x i count := by
  induction count generalizing i with
  | zero => rfl
  | succ count ih =>
    rw [Primitives.repeated, repeated]
    simp only [ih]
    rfl

theorem announced_primitives (x : Reader α) (fuel i : Nat) :
    primitives.announced x fuel i = announced x fuel i := by
  induction fuel generalizing i with
  | zero => rfl
  | succ fuel ih =>
    rw [Primitives.announced, announced]
    simp only [ih]
    rfl

theorem chain_primitives (x : Reader α) : primitives.chain x = chain x := by
  funext ctx c
  show primitives.announced x (c.rest.length / 4 + 1) 0 ctx c = _
  rw [announced_primitives]
  rfl

theorem decodeFields_primitives {fields : List (String × Shape)}
    (h : ∀ f ∈ fields, primitives.decode f.2 = f.2.decode) :
    primitives.decodeFields fields = Shape.decodeFields fields := by
  induction fields with
  | nil => rfl
  | cons f rest ih =>
    rw [Primitives.decodeFields, Shape.decodeFields, h f List.mem_cons_self,
      ih fun g hg => h g (List.mem_cons_of_mem _ hg)]
    rfl

theorem decodeArm_primitives {arms : List (Int × String × Shape)}
    {fallback : Option (String × Shape)}
    (harms : ∀ a ∈ arms, primitives.decode a.2.2 = a.2.2.decode)
    (hfallback : ∀ f ∈ fallback, primitives.decode f.2 = f.2.decode) (start : Nat) (code : Int) :
    primitives.decodeArm arms code (primitives.decodeFallback fallback start code) =
      Shape.decodeArm arms code (Shape.decodeFallback fallback start code) := by
  induction arms with
  | nil =>
    cases fallback with
    | none => rfl
    | some f =>
      rw [Primitives.decodeArm, Shape.decodeArm, Primitives.decodeFallback, Shape.decodeFallback,
        hfallback f rfl]
      rfl
  | cons a rest ih =>
    rw [Primitives.decodeArm, Shape.decodeArm, harms a List.mem_cons_self,
      ih fun b hb => harms b (List.mem_cons_of_mem _ hb)]
    rfl

/-- **With the primitives of the readers, reading is reading.** -/
theorem decode_primitives (shape : Shape) : primitives.decode shape = shape.decode := by
  induction shape with
  | void | int | uint | hyper | uhyper | bool | text => rfl
  | enum table fixed => rfl
  | octets extent ddp => cases extent <;> rfl
  | array elem extent ih =>
    obtain size | max := extent <;>
      simp only [Primitives.decode, Shape.decode, ih, Primitives.elements, repeated_primitives,
        bind_assoc] <;> rfl
  | chain elem ih =>
    rw [Primitives.decode, Shape.decode, ih, chain_primitives]
  | optional inner ih =>
    rw [Primitives.decode, Shape.decode, ih]
    rfl
  | struct fields ih =>
    rw [Primitives.decode, Shape.decode, decodeFields_primitives ih]
  | union disc arms fallback ihd iha ihf =>
    rw [Primitives.decode, Shape.decode, ihd]
    simp only [decodeArm_primitives iha ihf]
    rfl

end Reader

/-! ## Readers of two kinds -/

/-- A relation between readers of two kinds that holds of their primitives, and of what is done one
after the other. Faults that more input may mend are reported by `take` and `room` alone. -/
structure Related {m m' : Type → Type} [Monad m] [Monad m'] (k : Primitives m)
    (k' : Primitives m') (R : {α : Type} → m α → m' α → Prop) : Prop where
  pure {α : Type} (a : α) : R (Pure.pure a) (Pure.pure a)
  bind {α β : Type} {x : m α} {x' : m' α} {f : α → m β} {f' : α → m' β} :
    R x x' → (∀ a, R (f a) (f' a)) → R (x >>= f) (x' >>= f')
  strict : R k.strict k'.strict
  within {α : Type} {x : m α} {x' : m' α} (segment : Segment) :
    R x x' → R (k.within segment x) (k'.within segment x')
  failAt {α : Type} (offset : Nat) {fault : Fault} :
    fault.isTruncated = false → R (k.failAt offset fault : m α) (k'.failAt offset fault)
  offset : R k.offset k'.offset
  take (n : Nat) : R (k.take n) (k'.take n)
  placed? (wrap : Bytes → Value) (ddp : Bool) (n : Nat) :
    R (k.placed? wrap ddp n) (k'.placed? wrap ddp n)

/-- Codes are refused for good. -/
theorem Reader.isTruncated_of_judge {table : Table} {fixed strict : Bool} {code : Int32}
    {fault : Fault} (h : judge table fixed strict code = .error fault) :
    fault.isTruncated = false := by
  unfold judge at h
  split at h
  · split at h <;> cases h
    rfl
  · split at h
    · cases h
      rfl
    · split at h <;> cases h
      rfl

namespace Related

variable {m m' : Type → Type} [Monad m] [Monad m'] {k : Primitives m} {k' : Primitives m'}
  {R : {α : Type} → m α → m' α → Prop} {α β : Type}

theorem number (h : Related k k' R) (width : Nat) : R (k.number width) (k'.number width) :=
  h.bind (h.take width) fun _ => h.pure _

theorem uint (h : Related k k' R) : R k.uint k'.uint := h.bind (h.number 4) fun _ => h.pure _

theorem int (h : Related k k' R) : R k.int k'.int := h.bind h.uint fun _ => h.pure _

theorem uhyper (h : Related k k' R) : R k.uhyper k'.uhyper := h.bind (h.number 8) fun _ => h.pure _

theorem hyper (h : Related k k' R) : R k.hyper k'.hyper := h.bind h.uhyper fun _ => h.pure _

theorem flag (h : Related k k' R) (what : Malformation) : R (k.flag what) (k'.flag what) := by
  refine h.bind h.offset fun start => h.bind h.uint fun w => ?_
  split
  · exact h.pure _
  · split
    · exact h.pure _
    · exact h.failAt start rfl

theorem length (h : Related k k' R) (max : Option UInt32) : R (k.length max) (k'.length max) := by
  refine h.bind h.offset fun start => h.bind h.uint fun n => ?_
  split
  · split
    · exact h.failAt start rfl
    · exact h.pure _
  · exact h.pure _

theorem count (h : Related k k' R) (extent : Extent) : R (k.count extent) (k'.count extent) := by
  obtain size | max := extent
  · exact h.pure size
  · exact h.length max

theorem octets (h : Related k k' R) (n : Nat) : R (k.octets n) (k'.octets n) := by
  have hpadding : R (k.padding n) (k'.padding n) := by
    refine h.bind h.offset fun start => h.bind (h.take _) fun zeros => ?_
    split
    · exact h.failAt start rfl
    · exact h.pure _
  exact h.bind (h.take n) fun data => h.bind hpadding fun _ => h.pure data

theorem item (h : Related k k' R) (wrap : Bytes → Value) (max : Option UInt32) (ddp : Bool) :
    R (k.item wrap max ddp) (k'.item wrap max ddp) := by
  refine h.bind (h.length max) fun n => h.bind (h.placed? wrap ddp n.toNat) fun found => ?_
  cases found with
  | some v => exact h.pure v
  | none => exact h.bind (h.octets n.toNat) fun data => h.pure _

theorem enum (h : Related k k' R) (table : Table) (fixed : Bool) :
    R (k.enum table fixed) (k'.enum table fixed) := by
  refine h.bind h.offset fun start => h.bind h.int fun code => h.bind h.strict fun strict => ?_
  cases hj : Reader.judge table fixed strict code with
  | ok v => exact h.pure v
  | error fault => exact h.failAt start (Reader.isTruncated_of_judge hj)

theorem repeated (h : Related k k' R) {x : m α} {x' : m' α} (hx : R x x') (i count : Nat) :
    R (k.repeated x i count) (k'.repeated x' i count) := by
  induction count generalizing i with
  | zero => exact h.pure []
  | succ count ih =>
    exact h.bind (h.within _ hx) fun a => h.bind (ih (i + 1)) fun rest => h.pure _

theorem announced (h : Related k k' R) (hspent : R (k.spent : m (List α)) k'.spent) {x : m α}
    {x' : m' α} (hx : R x x') (fuel i : Nat) :
    R (k.announced x fuel i) (k'.announced x' fuel i) := by
  induction fuel generalizing i with
  | zero => exact hspent
  | succ fuel ih =>
    refine h.bind (h.flag _) fun more => ?_
    cases more with
    | true => exact h.bind (h.within _ hx) fun a => h.bind (ih (i + 1)) fun rest => h.pure _
    | false => exact h.pure []

theorem decodeFields (h : Related k k' R) {fields : List (String × Shape)}
    (hfields : ∀ f ∈ fields, R (k.decode f.2) (k'.decode f.2)) :
    R (k.decodeFields fields) (k'.decodeFields fields) := by
  induction fields with
  | nil => exact h.pure []
  | cons f rest ih =>
    have hrest := ih fun g hg => hfields g (List.mem_cons_of_mem _ hg)
    exact h.bind (h.within _ (hfields f List.mem_cons_self)) fun v =>
      h.bind hrest fun record => h.pure _

theorem decodeArm (h : Related k k' R) {arms : List (Int × String × Shape)}
    {fallback : Option (String × Shape)}
    (harms : ∀ a ∈ arms, R (k.decode a.2.2) (k'.decode a.2.2))
    (hfallback : ∀ f ∈ fallback, R (k.decode f.2) (k'.decode f.2)) (start : Nat) (code : Int) :
    R (k.decodeArm arms code (k.decodeFallback fallback start code))
      (k'.decodeArm arms code (k'.decodeFallback fallback start code)) := by
  induction arms with
  | nil =>
    cases fallback with
    | none => exact h.failAt start rfl
    | some f => exact h.bind (h.within _ (hfallback f rfl)) fun v => h.pure _
  | cons a rest ih =>
    rw [Primitives.decodeArm, Primitives.decodeArm]
    split
    · exact h.bind (h.within _ (harms a List.mem_cons_self)) fun v => h.pure _
    · exact ih fun b hb => harms b (List.mem_cons_of_mem _ hb)

/-- **What holds of the primitives and of the two loops holds of the readers of every shape.** -/
theorem decode (h : Related k k' R)
    (harray : ∀ (elem : Shape) (n : Nat), R (k.decode elem) (k'.decode elem) →
      R (k.elements elem.minSize (k.decode elem) n) (k'.elements elem.minSize (k'.decode elem) n))
    (hchain : ∀ elem : Shape, R (k.decode elem) (k'.decode elem) →
      R (k.chain (k.decode elem)) (k'.chain (k'.decode elem)))
    (shape : Shape) : R (k.decode shape) (k'.decode shape) := by
  induction shape with
  | void => exact h.pure _
  | int => exact h.bind h.int fun v => h.pure _
  | uint => exact h.bind h.uint fun v => h.pure _
  | hyper => exact h.bind h.hyper fun v => h.pure _
  | uhyper => exact h.bind h.uhyper fun v => h.pure _
  | bool => exact h.bind (h.flag _) fun b => h.pure _
  | enum table fixed => exact h.enum table fixed
  | octets extent ddp =>
    obtain size | max := extent
    · exact h.bind (h.octets _) fun data => h.pure _
    · exact h.item _ max ddp
  | text max ddp => exact h.item _ max ddp
  | array elem extent ih =>
    exact h.bind (h.count extent) fun n => h.bind (harray elem n.toNat ih) fun items => h.pure _
  | chain elem ih => exact h.bind (hchain elem ih) fun items => h.pure _
  | optional inner ih =>
    refine h.bind (h.flag _) fun present => ?_
    cases present with
    | true => exact h.bind ih fun v => h.pure _
    | false => exact h.pure _
  | struct fields ih => exact h.bind (h.decodeFields ih) fun record => h.pure _
  | union disc arms fallback ihd iha ihf =>
    refine h.bind h.offset fun start => h.bind ihd fun d => ?_
    cases d.armCode? with
    | none => exact h.failAt start rfl
    | some code => exact h.bind (h.decodeArm iha ihf start code) fun arm => h.pure _

end Related

end NfsWire
