import NfsWire.Proofs.Xdr.Room
import NfsWire.Proofs.Xdr.RoundTrip

/-!
# Guarded readers

To drop octets that are not there leaves none, and a difference below zero is zero: the readers of
this library are put together from operations that always have a result. Buffers and words are not
so kind. A slice has to lie in its buffer, its bounds in order; a difference has to be one; and a
loop has to end by itself.

What is *guarded* does the same with positions in buffers, and gives nothing where an operation has
no result. Guarded readers are readers with other primitives (`GuardedReader.primitives`), and the
relation between the two kinds is that from the same place of the same message they give the same,
which implies that the guarded one gives something (`guards_decode`). So no operation is out of
range, whatever the message, the shape and the chunks are. What carries the argument is that a
cursor stays on its message (`Cursor.On`): its offset lies within, and what it has left is what is
behind its offset.

Before the elements of an array are read, the least size of one is worked out from the shape alone,
in words of 64 bits. Shapes can be made for which that goes round. Those in use are not among them
(`knownShapes_measured`).
-/

namespace NfsWire

/-! ## Guarded operations -/

namespace Guarded

/-- `n - k`, if it is not below zero. -/
def minus (n k : Nat) : Option Nat := if k ≤ n then some (n - k) else none

/-- The octets from `start` up to `stop`, if there are such. -/
def slice (data : Bytes) (start stop : Nat) : Option Bytes :=
  if start ≤ stop ∧ stop ≤ data.length then some ((data.drop start).take (stop - start)) else none

/-- A number that a word of 64 bits holds. -/
def word (n : Nat) : Option Nat := if n < UInt64.size then some n else none

variable {n k start stop : Nat} {data : Bytes}

theorem minus_of_le (h : k ≤ n) : minus n k = some (n - k) := if_pos h

theorem word_of_lt (h : n < UInt64.size) : word n = some n := if_pos h

theorem slice_of_le (h : start ≤ stop) (h' : stop ≤ data.length) :
    slice data start stop = some ((data.drop start).take (stop - start)) := if_pos ⟨h, h'⟩

/-- All that follows `start`. -/
theorem slice_from (h : start ≤ data.length) :
    slice data start data.length = some (data.drop start) := by
  rw [slice_of_le h (Nat.le_refl _), List.take_of_length_le (Nat.le_of_eq List.length_drop)]

/-- All that comes before `stop`. -/
theorem slice_upto (h : stop ≤ data.length) : slice data 0 stop = some (data.take stop) := by
  rw [slice_of_le (Nat.zero_le _) h]
  rfl

end Guarded

/-! ## Readers -/

/-- What a guarded reader is told. -/
structure Task extends ReadContext where
  message : Bytes

/-- Where a guarded reader stands. -/
structure Place where
  offset : Nat
  spliced : Nat
  writesUsed : Nat
  deriving DecidableEq, Repr

/-- A step over a message, or nothing where one of its operations is out of range. -/
def GuardedReader (α : Type) : Type := Task → Place → Option (EStateM.Result DecodeError Place α)

namespace GuardedReader

open Guarded

instance : Monad GuardedReader where
  pure a := fun _ p => some (.ok a p)
  bind x f := fun t p =>
    match x t p with
    | some (.ok a p) => f a t p
    | some (.error e p) => some (.error e p)
    | none => none

/-- Stop with a fault at a given offset. -/
def failAt {α : Type} (offset : Nat) (fault : Fault) : GuardedReader α := fun t p =>
  some (.error { fault, path := t.path, offset } p)

/-- The next `n` octets. -/
def take (n : Nat) : GuardedReader Bytes := fun t p => do
  let rest ← slice t.message p.offset t.message.length
  if rest.length < n then failAt p.offset (.truncated (← minus n rest.length)) t p
  else
    let after ← slice rest n rest.length
    return .ok (← slice rest 0 n) { p with offset := ← minus t.message.length after.length }

/-- The first `n` octets of a chunk, or a reference to it when its data is missing. -/
def chunkValue (wrap : Bytes → Value) (chunk : Chunk) (n : Nat) : Option Value :=
  match chunk.data with
  | some data => (slice data 0 (min n data.length)).map wrap
  | none => some (.unresolved chunk.ref)

/-- An item of `n` octets that was taken out of the message, if it was. -/
def placed? (wrap : Bytes → Value) (ddp : Bool) (n : Nat) : GuardedReader (Option Value) :=
  fun t p =>
    match t.chunks with
    | none => some (.ok none p)
    | some chunks =>
      let position := p.offset + p.spliced
      match chunks.readAt? position with
      | some chunk =>
        let carried := chunk.ref.length.toNat
        if carried < n ∨ Bytes.padded n < carried then
          failAt p.offset (.violation (.readChunkSize position carried n)) t p
        else do
          let v ← chunkValue wrap chunk n
          return .ok (some v) { p with spliced := p.spliced + Bytes.padded n }
      | none =>
        if ddp ∧ t.useWrites then
          if p.writesUsed < chunks.writes.length then do
            let chunk ← chunks.writes[p.writesUsed]?
            let carried := chunk.ref.length.toNat
            if carried < n then
              failAt p.offset (.violation (.writeChunkSize chunk.ref.index carried n)) t p
            else
              let v ← chunkValue wrap chunk n
              return .ok (some v) { p with writesUsed := p.writesUsed + 1 }
          else some (.ok none p)
        else some (.ok none p)

/-- Refuse an array whose elements cannot all be there. -/
def room (count minSize : Nat) : GuardedReader Unit := fun t p => do
  let need := Reader.need count minSize
  let avail ← minus t.message.length p.offset
  if avail < need then failAt p.offset (.truncated (← minus need avail)) t p
  else return .ok () p

/-- The primitives of guarded readers. A chain does not run out of flags: it ends. -/
def primitives : Primitives GuardedReader where
  strict := fun t p => some (.ok t.strict p)
  within segment part := fun t p => part { t with path := t.path ++ [segment] } p
  failAt := failAt
  offset := fun _ p => some (.ok p.offset p)
  take := take
  placed? := placed?
  room := room
  flags := fun t p => do return .ok ((← minus t.message.length p.offset) / 4 + 1) p
  spent := fun _ _ => none

end GuardedReader

/-! ## From the same place -/

/-- The cursor stands in the message. -/
structure Cursor.On (c : Cursor) (message : Bytes) : Prop where
  inside : c.offset ≤ message.length
  rest : c.rest = message.drop c.offset

/-- Where the cursor stands. -/
def Cursor.place (c : Cursor) : Place := ⟨c.offset, c.spliced, c.writesUsed⟩

theorem Cursor.on_at (message : Bytes) (offset : Nat) : (Cursor.at message offset).On message := by
  refine ⟨Nat.min_le_right .., ?_⟩
  unfold Cursor.at
  by_cases h : offset ≤ message.length
  · rw [Nat.min_eq_left h]
  · have hle : message.length ≤ offset := by omega
    rw [Nat.min_eq_right hle, List.drop_length, List.drop_of_length_le hle]

theorem Cursor.On.length_rest {c : Cursor} {message : Bytes} (h : c.On message) :
    c.rest.length = message.length - c.offset := by
  rw [h.rest, List.length_drop]

namespace Reader

open Guarded

variable {α β : Type} {message : Bytes}

/-- The second run gives what the first gives, and the first stays on the message. -/
inductive Same (message : Bytes) : EStateM.Result DecodeError Cursor α →
    Option (EStateM.Result DecodeError Place α) → Prop where
  | ok (a : α) {c : Cursor} : c.On message → Same message (.ok a c) (some (.ok a c.place))
  | error (e : DecodeError) {c : Cursor} :
    c.On message → Same message (.error e c) (some (.error e c.place))

/-- From each place of each message, the guarded reader gives what the reader gives. -/
def Guards (x : Reader α) (y : GuardedReader α) : Prop :=
  ∀ (ctx : ReadContext) (message : Bytes) (c : Cursor), c.On message →
    Same message (x ctx c) (y ⟨ctx, message⟩ c.place)

theorem Same.bind {x : Reader α} {y : GuardedReader α} {f : α → Reader β}
    {g : α → GuardedReader β} {ctx : ReadContext} {c : Cursor}
    (hx : Same message (x ctx c) (y ⟨ctx, message⟩ c.place))
    (hf : ∀ a m, x ctx c = .ok a m → m.On message →
      Same message (f a ctx m) (g a ⟨ctx, message⟩ m.place)) :
    Same message ((x >>= f) ctx c) ((y >>= g) ⟨ctx, message⟩ c.place) := by
  show Same message (EStateM.bind (x ctx) (fun a => f a ctx) c) _
  unfold EStateM.bind
  simp only [Bind.bind]
  generalize hfirst : x ctx c = first, y ⟨ctx, message⟩ c.place = second at hx
  cases hx with
  | ok a hm => exact hf a _ hfirst hm
  | error e hm => exact .error e hm

theorem Guards.pure (a : α) : Guards (Pure.pure a) (Pure.pure a) :=
  fun _ _ _ hc => .ok a hc

theorem Guards.bind {x : Reader α} {y : GuardedReader α} {f : α → Reader β}
    {g : α → GuardedReader β} (hx : x.Guards y) (hf : ∀ a, (f a).Guards (g a)) :
    (x >>= f).Guards (y >>= g) :=
  fun ctx message c hc => (hx ctx message c hc).bind fun a m _ hm => hf a ctx message m hm

theorem guards_failAt (offset : Nat) (fault : Fault) :
    Guards (failAt offset fault : Reader α) (GuardedReader.failAt offset fault) :=
  fun _ _ _ hc => .error _ hc

theorem guards_take (n : Nat) : (take n).Guards (GuardedReader.take n) := by
  intro ctx message c hc
  have hslice : slice message c.offset message.length = some c.rest := by
    rw [slice_from hc.inside, hc.rest]
  have hlength := hc.length_rest
  have hinside := hc.inside
  simp only [take, GuardedReader.take, Cursor.place, hslice, Option.bind_eq_bind, Option.bind_some,
    List.length_take]
  by_cases hshort : c.rest.length < n
  · rw [if_pos (by omega), if_pos hshort, minus_of_le (Nat.le_of_lt hshort),
      Nat.min_eq_right (Nat.le_of_lt hshort)]
    exact .error _ hc
  · have henough : n ≤ c.rest.length := Nat.le_of_not_lt hshort
    have hafter : (c.rest.drop n).length = message.length - (c.offset + n) := by
      rw [List.length_drop]
      omega
    rw [if_neg (by omega), if_neg hshort, slice_from henough, slice_upto henough]
    simp only [Option.bind_some, hafter]
    rw [minus_of_le (Nat.sub_le _ _), Nat.sub_sub_self (by omega)]
    refine .ok _ ⟨?_, ?_⟩
    · show c.offset + n ≤ message.length
      omega
    · show c.rest.drop n = message.drop (c.offset + n)
      rw [hc.rest, List.drop_drop]

theorem guards_chunkValue (wrap : Bytes → Value) (chunk : Chunk) (n : Nat) :
    GuardedReader.chunkValue wrap chunk n = some (chunkValue wrap chunk n) := by
  unfold GuardedReader.chunkValue chunkValue
  cases chunk.data with
  | none => rfl
  | some data =>
    show (slice data 0 (min n data.length)).map wrap = _
    rw [slice_upto (Nat.min_le_right ..), ← List.take_eq_take_min]
    rfl

theorem guards_placed? (wrap : Bytes → Value) (ddp : Bool) (n : Nat) :
    (placed? wrap ddp n).Guards (GuardedReader.placed? wrap ddp n) := by
  intro ctx message c hc
  unfold placed? GuardedReader.placed?
  cases ctx.chunks with
  | none => exact .ok none hc
  | some chunks =>
    simp only [Cursor.place]
    cases chunks.readAt? (c.offset + c.spliced) with
    | some chunk =>
      dsimp only
      split
      · exact .error _ hc
      · rw [guards_chunkValue]
        exact .ok _ ⟨hc.inside, hc.rest⟩
    | none =>
      dsimp only
      split
      · by_cases hused : c.writesUsed < chunks.writes.length
        · have hchunk : chunks.writes[c.writesUsed]? = some (chunks.writes[c.writesUsed]) :=
            List.getElem?_eq_getElem hused
          simp only [hused, if_true, hchunk, Option.bind_eq_bind, Option.bind_some]
          split
          · exact .error _ hc
          · rw [guards_chunkValue]
            exact .ok _ ⟨hc.inside, hc.rest⟩
        · have hnone : chunks.writes[c.writesUsed]? = none :=
            List.getElem?_eq_none (Nat.le_of_not_lt hused)
          simp only [hused, if_false, hnone]
          exact .ok none hc
      · exact .ok none hc

theorem guards_room (count minSize : Nat) :
    (room count minSize).Guards (GuardedReader.room count minSize) := by
  intro ctx message c hc
  have hlength := hc.length_rest
  unfold room GuardedReader.room
  simp only [Cursor.place, minus_of_le hc.inside, Option.bind_eq_bind, Option.bind_some, hlength]
  split
  next hshort =>
    rw [minus_of_le (Nat.le_of_lt hshort)]
    exact .error _ hc
  next => exact .ok () hc

theorem related_guards :
    Related primitives GuardedReader.primitives (fun x y => x.Guards y) where
  pure := .pure
  bind := .bind
  strict := fun ctx _ _ hc => .ok ctx.strict hc
  within _ h := fun _ message c hc => h _ message c hc
  failAt offset fault _ := guards_failAt offset fault
  offset := fun _ _ c hc => .ok c.offset hc
  take := guards_take
  placed? := guards_placed?

/-- A chain ends: there are no more flags than words. -/
theorem guards_announced {x : Reader α} {y : GuardedReader α} (hxy : x.Guards y)
    (htakes : x.Takes 0) {ctx : ReadContext} {c : Cursor} {fuel i : Nat} (hc : c.On message)
    (hfuel : c.rest.length / 4 < fuel) :
    Same message (primitives.announced x fuel i ctx c)
      (GuardedReader.primitives.announced y fuel i ⟨ctx, message⟩ c.place) := by
  induction fuel generalizing i c with
  | zero => omega
  | succ fuel ih =>
    refine (related_guards.flag _ _ _ _ hc).bind fun more m hflag hm => ?_
    cases more with
    | false => exact .ok [] hm
    | true =>
      have hword := (takes_flag _ _ _ _ _ hflag).length_rest
      refine (related_guards.within _ hxy _ _ _ hm).bind fun a m' helem hm' => ?_
      have hafter := (htakes.within _ _ _ _ _ helem).length_rest
      exact (ih hm' (by omega)).bind fun rest m'' _ hm'' => .ok (a :: rest) hm''

theorem guards_chain {x : Reader α} {y : GuardedReader α} (hxy : x.Guards y)
    (htakes : x.Takes 0) : (primitives.chain x).Guards (GuardedReader.primitives.chain y) := by
  intro ctx message c hc
  have hflags : Same message (primitives.flags ctx c)
      (GuardedReader.primitives.flags ⟨ctx, message⟩ c.place) := by
    show Same message _ ((minus message.length c.offset).bind fun n => some (.ok (n / 4 + 1) _))
    rw [minus_of_le hc.inside, ← hc.length_rest]
    exact .ok _ hc
  refine hflags.bind fun fuel m hm _ => ?_
  cases hm
  exact guards_announced hxy htakes hc (Nat.lt_succ_self _)

/-- **No reader has an operation out of range**, at no message and with no chunks: the guarded
reader of a shape gives what the reader gives. -/
theorem guards_decode (shape : Shape) :
    shape.decode.Guards (GuardedReader.primitives.decode shape) := by
  rw [← decode_primitives]
  refine related_guards.decode ?_ ?_ shape
  · intro elem count ih
    exact (guards_room count elem.minSize).bind fun _ => related_guards.repeated ih 0 count
  · intro elem ih
    have htakes := takes_minSize lenient_room elem
    rw [decode_withRoom, ← decode_primitives] at htakes
    exact guards_chain ih (htakes.mono (Nat.zero_le _))

end Reader

namespace Guarded

mutual

/-- The least number of octets a value of the shape takes in line, if it is worked out in words. -/
def minSize : Shape → Option Nat
  | .void => some 0
  | .hyper | .uhyper => some 8
  | .octets (.fixed n) _ => word (Bytes.padded n.toNat)
  | .array elem (.fixed n) => do word ((← minSize elem) * n.toNat)
  | .struct fields => minSizes fields
  | _ => some 4

def minSizes : List (String × Shape) → Option Nat
  | [] => some 0
  | (_, s) :: rest => do word ((← minSize s) + (← minSizes rest))

end

mutual

/-- Of each array within the shape, the least size of an element is worked out in words. -/
def measured : Shape → Bool
  | .array elem _ => decide (minSize elem = some elem.minSize) && measured elem
  | .chain elem => measured elem
  | .optional inner => measured inner
  | .struct fields => measuredFields fields
  | .union disc arms fallback => measured disc && measuredArms arms && measuredFallback fallback
  | _ => true

def measuredFields : List (String × Shape) → Bool
  | [] => true
  | (_, s) :: rest => measured s && measuredFields rest

def measuredArms : List (Int × String × Shape) → Bool
  | [] => true
  | (_, _, s) :: rest => measured s && measuredArms rest

def measuredFallback : Option (String × Shape) → Bool
  | none => true
  | some (_, s) => measured s

end

end Guarded

/-! ## Whole messages -/

/-- Read from `offset` of a message, or from its end if it is shorter: the result and the offset
behind it. -/
def GuardedReader.readAt {α : Type} (y : GuardedReader α) (ctx : ReadContext) (message : Bytes)
    (offset : Nat) : Option (Except DecodeError (α × Nat)) :=
  (y ⟨ctx, message⟩ ⟨min offset message.length, 0, 0⟩).map fun
    | .ok a p => .ok (a, p.offset)
    | .error e _ => .error e

/-- The two ways in which both readers end. -/
theorem Reader.Guards.readAt {α : Type} {x : Reader α} {y : GuardedReader α} (h : x.Guards y)
    (ctx : ReadContext) (message : Bytes) (offset : Nat) :
    (∃ a c, x ctx (Cursor.at message offset) = .ok a c ∧ c.On message ∧
      y.readAt ctx message offset = some (.ok (a, c.offset))) ∨
    ∃ e c, x ctx (Cursor.at message offset) = .error e c ∧
      y.readAt ctx message offset = some (.error e) := by
  have hsame := h ctx message _ (Cursor.on_at message offset)
  have hread : y.readAt ctx message offset =
      (y ⟨ctx, message⟩ (Cursor.at message offset).place).map fun
        | .ok a p => .ok (a, p.offset)
        | .error e _ => .error e := rfl
  rw [hread]
  generalize x ctx (Cursor.at message offset) = first,
    y ⟨ctx, message⟩ (Cursor.at message offset).place = second at hsame
  cases hsame with
  | ok a hc => exact .inl ⟨a, _, rfl, hc, rfl⟩
  | error e _ => exact .inr ⟨e, _, rfl, rfl⟩

end NfsWire
