import NfsWire.Proofs.Xdr.Primitives
import NfsWire.Proofs.Xdr.Reading

/-!
# The room for an array

Before any element of an array is read, the reader asks whether all of them can be there. The answer
is a shortcut and nothing more: an array that is refused for want of room would have failed anyway,
at one of its elements.

1. Whatever is read takes its least size in line (`Reader.takes_minSize`), a chunk or not: an item
   that was taken out of the message leaves its length word.
2. So if all elements of an array are read, there was room for them. Any check that lets pass what
   fits, and does nothing else, is therefore passed by each array that can be read at all, and the
   readers with any two such checks read the same (`Lenient.sameSuccess`).

The check of the reader is one of these; no check at all is another; and so is the strictest one,
which refuses every array that is too large for what is left of the message.
-/

namespace NfsWire

/-! ## Octets in line -/

/-- From `c` to `c'` the message is passed over, by `n` octets at least. -/
def Cursor.Passes (c : Cursor) (n : Nat) (c' : Cursor) : Prop :=
  ∃ data : Bytes, n ≤ data.length ∧ c.rest = data ++ c'.rest ∧ c'.offset = c.offset + data.length

namespace Cursor

variable {c m c' : Cursor} {n k : Nat}

/-- Chunks may have been used, but the cursor is where it was in the message. -/
theorem Passes.still (hrest : c'.rest = c.rest) (hoffset : c'.offset = c.offset) :
    c.Passes 0 c' := ⟨[], Nat.le_refl 0, hrest.symm, hoffset⟩

theorem Passes.refl (c : Cursor) : c.Passes 0 c := .still rfl rfl

theorem Passes.trans (h : c.Passes n m) (h' : m.Passes k c') : c.Passes (n + k) c' := by
  obtain ⟨data, hn, hrest, hoffset⟩ := h
  obtain ⟨more, hk, hrest', hoffset'⟩ := h'
  refine ⟨data ++ more, ?_, ?_, ?_⟩
  · rw [List.length_append]
    omega
  · rw [hrest, hrest', List.append_assoc]
  · rw [hoffset', hoffset, List.length_append, Nat.add_assoc]

theorem Passes.mono (h : c.Passes n c') (hk : k ≤ n) : c.Passes k c' := by
  obtain ⟨data, hn, hrest, hoffset⟩ := h
  exact ⟨data, Nat.le_trans hk hn, hrest, hoffset⟩

theorem Reads.passes {data : Bytes} (h : c.Reads data c') : c.Passes data.length c' :=
  ⟨data, Nat.le_refl _, h.rest, h.offset⟩

/-- What is passed over was there. -/
theorem Passes.length_rest (h : c.Passes n c') : n + c'.rest.length ≤ c.rest.length := by
  obtain ⟨data, hn, hrest, -⟩ := h
  rw [hrest, List.length_append]
  omega

end Cursor

/-! ## Readers with another check -/

namespace Reader

variable {α β : Type}

/-- A check of the room for an array: from the number of elements and their least size. -/
abbrev RoomCheck := (count minSize : Nat) → Reader Unit

/-- The primitives of the readers, but for the room for an array. -/
def withRoom (check : RoomCheck) : Primitives Reader := { primitives with room := check }

/-- No check at all. -/
def anyRoom : RoomCheck := fun _ _ => return ()

/-- Refuse every array whose elements, each of its least size, are more than what is left. -/
def exactRoom : RoomCheck := fun count minSize ctx c =>
  if c.rest.length < count * minSize then
    fail (.truncated (count * minSize - c.rest.length)) ctx c
  else .ok () c

/-- A check that lets pass what fits, and does nothing else. -/
structure Lenient (check : RoomCheck) : Prop where
  passes {count minSize : Nat} {ctx : ReadContext} {c : Cursor} :
    count * minSize ≤ c.rest.length → check count minSize ctx c = .ok () c
  still {count minSize : Nat} {ctx : ReadContext} {c c' : Cursor} :
    check count minSize ctx c = .ok () c' → c' = c

theorem lenient_room : Lenient room where
  passes h := room_ok_iff.mpr ⟨Nat.le_trans (need_le ..) h, rfl⟩
  still h := (room_ok_iff.mp h).2

theorem lenient_anyRoom : Lenient anyRoom where
  passes _ := rfl
  still h := (pure_ok_iff.mp h).2

theorem exactRoom_ok_iff {count minSize : Nat} {ctx : ReadContext} {c c' : Cursor} :
    exactRoom count minSize ctx c = .ok () c' ↔ count * minSize ≤ c.rest.length ∧ c' = c := by
  unfold exactRoom
  split
  next hlt =>
    constructor
    · intro h
      exact absurd h failAt_ne_ok
    · rintro ⟨hle, -⟩
      omega
  next hle =>
    constructor
    · intro h
      cases h
      exact ⟨Nat.le_of_not_lt hle, rfl⟩
    · rintro ⟨-, rfl⟩
      rfl

theorem lenient_exactRoom : Lenient exactRoom where
  passes h := exactRoom_ok_iff.mpr ⟨h, rfl⟩
  still h := (exactRoom_ok_iff.mp h).2

/-! ## What is taken in line -/

/-- When the reader succeeds, it has taken `n` octets at least. -/
def Takes (n : Nat) (x : Reader α) : Prop :=
  ∀ ctx c a c', x ctx c = .ok a c' → c.Passes n c'

section Takes

variable {n k : Nat} {x : Reader α} {f : α → Reader β}

theorem Takes.pure (a : α) : (Pure.pure a : Reader α).Takes 0 := by
  intro ctx c b c' h
  obtain ⟨rfl, rfl⟩ := pure_ok_iff.mp h
  exact .refl _

theorem Takes.bind (hx : x.Takes n) (hf : ∀ a, (f a).Takes k) : (x >>= f).Takes (n + k) := by
  intro ctx c b c' h
  obtain ⟨a, m, hfirst, hthen⟩ := bind_ok_iff.mp h
  exact (hx _ _ _ _ hfirst).trans (hf a _ _ _ _ hthen)

/-- What is done with the result need not take anything. -/
theorem Takes.andThen (hx : x.Takes n) (hf : ∀ a, (f a).Takes 0) : (x >>= f).Takes n :=
  hx.bind hf

theorem Takes.mono (hx : x.Takes n) (hk : k ≤ n) : x.Takes k :=
  fun _ _ _ _ h => (hx _ _ _ _ h).mono hk

theorem Takes.within (hx : x.Takes n) (segment : Segment) : (within segment x).Takes n :=
  fun _ _ _ _ h => hx _ _ _ _ h

theorem takes_failAt (offset : Nat) (fault : Fault) : (failAt offset fault : Reader α).Takes n :=
  fun _ _ _ _ h => absurd h failAt_ne_ok

theorem takes_uint : uint.Takes 4 :=
  fun _ _ _ _ h => (uint_ok_iff.mp h).passes.mono (by simp [Bytes.word])

theorem takes_int : int.Takes 4 :=
  fun _ _ _ _ h => (int_ok_iff.mp h).passes.mono (by simp [Bytes.word])

theorem takes_uhyper : uhyper.Takes 8 :=
  fun _ _ _ _ h => (uhyper_ok_iff.mp h).passes.mono (by simp)

theorem takes_hyper : hyper.Takes 8 :=
  fun _ _ _ _ h => (hyper_ok_iff.mp h).passes.mono (by simp)

theorem takes_flag (what : Malformation) : (flag what).Takes 4 :=
  fun _ _ _ _ h => (flag_ok_iff.mp h).passes.mono (by simp [flagWord, Bytes.word])

theorem takes_length (max : Option UInt32) : (length max).Takes 4 :=
  fun _ _ _ _ h => (length_ok_iff.mp h).2.passes.mono (by simp [Bytes.word])

theorem takes_octets (n : Nat) : (octets n).Takes (Bytes.padded n) := by
  intro ctx c data c' h
  obtain ⟨rfl, hreads⟩ := octets_ok_iff.mp h
  exact hreads.passes.mono (by simp [Bytes.filled, Bytes.padded])

theorem takes_enum (table : Table) (fixed : Bool) : (enum table fixed).Takes 4 := by
  intro ctx c v c' h
  obtain ⟨code, -, hreads⟩ := enum_ok_iff.mp h
  exact hreads.passes.mono (by simp [Bytes.word])

/-- To look for an item among the chunks takes nothing in line. -/
theorem takes_placed? (wrap : Bytes → Value) (ddp : Bool) (n : Nat) :
    (placed? wrap ddp n).Takes 0 := by
  intro ctx c found c' h
  obtain hnone | ⟨chunk, m, hchunk, hrest, hoffset⟩ | ⟨what, hrefused⟩ :=
    placed?_cases wrap ddp n ctx c
  · rw [hnone] at h
    cases h
    exact .refl c
  · rw [hchunk] at h
    cases h
    exact .still hrest hoffset
  · rw [hrefused] at h
    cases h

/-- An item leaves its length word in line, wherever its data is. -/
theorem takes_item (wrap : Bytes → Value) (max : Option UInt32) (ddp : Bool) :
    (item wrap max ddp).Takes 4 := by
  refine (takes_length max).andThen fun n => (takes_placed? wrap ddp _).andThen fun found => ?_
  cases found with
  | some v => exact .pure v
  | none => exact ((takes_octets _).andThen fun data => .pure _).mono (Nat.zero_le _)

theorem Takes.repeated (hx : x.Takes n) (i count : Nat) :
    (repeated x i count).Takes (count * n) := by
  induction count generalizing i with
  | zero => exact (Takes.pure []).mono (by omega)
  | succ count ih =>
    refine ((hx.within _).bind fun a => (ih (i + 1)).andThen fun rest => .pure _).mono ?_
    rw [Nat.succ_mul]
    omega

theorem Takes.announced (hx : x.Takes 0) (fuel i : Nat) :
    (announced x (fuel + 1) i).Takes 4 := by
  induction fuel generalizing i with
  | zero =>
    refine (takes_flag _).andThen fun more => ?_
    cases more with
    | true => exact (hx.within _).andThen fun a => (Takes.pure []).andThen fun rest => .pure _
    | false => exact .pure []
  | succ fuel ih =>
    refine (takes_flag _).andThen fun more => ?_
    cases more with
    | true =>
      exact (hx.within _).andThen fun a =>
        ((ih (i + 1)).mono (Nat.zero_le 4)).andThen fun rest => .pure _
    | false => exact .pure []

/-- A chain has at least the flag that ends it. -/
theorem Takes.chain (hx : x.Takes 0) : (chain x).Takes 4 :=
  fun _ _ _ _ h => hx.announced _ 0 _ _ _ _ h

end Takes

/-! ## Least sizes -/

section LeastSize

variable {check : RoomCheck}

theorem Lenient.takes (h : Lenient check) (count minSize : Nat) :
    (check count minSize).Takes 0 := by
  intro ctx c a c' hok
  rw [h.still hok]
  exact .refl c

/-- Nothing but the room is another. -/
theorem related_withRoom (check : RoomCheck) : Related (withRoom check) primitives Eq where
  pure _ := rfl
  bind hx hf := by rw [hx, funext hf]
  strict := rfl
  within segment hx := congrArg (within segment) hx
  failAt _ _ _ := rfl
  offset := rfl
  take _ := rfl
  placed? _ _ _ := rfl

theorem repeated_withRoom (x : Reader α) (i count : Nat) :
    (withRoom check).repeated x i count = repeated x i count :=
  ((related_withRoom check).repeated rfl i count).trans (repeated_primitives x i count)

theorem chain_withRoom (x : Reader α) : (withRoom check).chain x = chain x := by
  rw [← chain_primitives]
  have hloop (fuel : Nat) : (withRoom check).announced x fuel 0 = primitives.announced x fuel 0 :=
    (related_withRoom check).announced rfl rfl fuel 0
  exact congrArg (primitives.flags >>= ·) (funext hloop)

theorem Takes.elements {x : Reader α} {n : Nat} (h : Lenient check) (hx : x.Takes n)
    (minSize count : Nat) : ((withRoom check).elements minSize x count).Takes (count * n) := by
  rw [Primitives.elements, repeated_withRoom]
  exact ((h.takes count minSize).bind fun _ => hx.repeated 0 count).mono (by omega)

/-- What selects an arm is a word at least. -/
theorem four_le_of_armCode? {shape : Shape} {ctx : ReadContext} {c c' : Cursor} {d : Value}
    {code : Int} (h : (withRoom check).decode shape ctx c = .ok d c')
    (hcode : d.armCode? = some code) : 4 ≤ shape.minSize := by
  -- Only the shapes that may take less are of interest, and none of them gives a word.
  have hwrap {β : Type} {x : Reader β} {m : Cursor} {wrap : β → Value}
      (hnone : ∀ b, (wrap b).armCode? = none)
      (h : (do return wrap (← x) : Reader Value) ctx m = .ok d c') : False := by
    obtain ⟨b, _, -, hpure⟩ := bind_ok_iff.mp h
    rw [(pure_ok_iff.mp hpure).1, hnone] at hcode
    cases hcode
  cases shape with
  | void =>
    rw [(pure_ok_iff.mp h).1] at hcode
    cases hcode
  | octets extent ddp =>
    obtain size | max := extent
    · exact (hwrap (fun _ => rfl) h).elim
    · exact Nat.le_refl 4
  | array elem extent =>
    obtain size | max := extent
    · obtain ⟨count, m, -, hitems⟩ := bind_ok_iff.mp h
      exact (hwrap (fun _ => rfl) hitems).elim
    · exact Nat.le_refl 4
  | struct fields => exact (hwrap (fun _ => rfl) h).elim
  | _ => simp [Shape.minSize]

theorem takes_decodeFields {fields : List (String × Shape)}
    (hfields : ∀ f ∈ fields, ((withRoom check).decode f.2).Takes f.2.minSize) :
    ((withRoom check).decodeFields fields).Takes (Shape.minSizes fields) := by
  induction fields with
  | nil => exact .pure []
  | cons f rest ih =>
    have hrest := ih fun g hg => hfields g (List.mem_cons_of_mem _ hg)
    have hfirst := (hfields f List.mem_cons_self).within (.name f.1)
    exact hfirst.bind fun v => hrest.andThen fun record => .pure _

/-- An arm may be empty. -/
theorem takes_decodeArm {arms : List (Int × String × Shape)} {fallback : Option (String × Shape)}
    (harms : ∀ a ∈ arms, ((withRoom check).decode a.2.2).Takes a.2.2.minSize)
    (hfallback : ∀ f ∈ fallback, ((withRoom check).decode f.2).Takes f.2.minSize) (start : Nat)
    (code : Int) :
    ((withRoom check).decodeArm arms code
      ((withRoom check).decodeFallback fallback start code)).Takes 0 := by
  induction arms with
  | nil =>
    cases fallback with
    | none => exact takes_failAt start _
    | some f =>
      exact ((((hfallback f rfl).mono (Nat.zero_le _)).within _).andThen fun v => .pure _)
  | cons a rest ih =>
    rw [Primitives.decodeArm]
    split
    · exact (((harms a List.mem_cons_self).mono (Nat.zero_le _)).within _).andThen fun v => .pure _
    · exact ih fun b hb => harms b (List.mem_cons_of_mem _ hb)

/-- **Whatever is read takes its least size in line.** -/
theorem takes_minSize (h : Lenient check) (shape : Shape) :
    ((withRoom check).decode shape).Takes shape.minSize := by
  induction shape with
  | void => exact .pure _
  | int => exact takes_int.andThen fun v => .pure _
  | uint => exact takes_uint.andThen fun v => .pure _
  | hyper => exact takes_hyper.andThen fun v => .pure _
  | uhyper => exact takes_uhyper.andThen fun v => .pure _
  | bool => exact (takes_flag _).andThen fun b => .pure _
  | enum table fixed => exact takes_enum table fixed
  | octets extent ddp =>
    obtain size | max := extent
    · exact (takes_octets _).andThen fun data => .pure _
    · exact takes_item _ max ddp
  | text max ddp => exact takes_item _ max ddp
  | array elem extent ih =>
    have hitems (n : Nat) : (do
        return .array (← (withRoom check).elements elem.minSize ((withRoom check).decode elem) n) :
        Reader Value).Takes (n * elem.minSize) :=
      (ih.elements h elem.minSize n).andThen fun items => .pure _
    obtain size | max := extent
    · exact (hitems size.toNat).mono (Nat.le_of_eq (Nat.mul_comm _ _))
    · exact (takes_length max).andThen fun n => (hitems n.toNat).mono (Nat.zero_le _)
  | chain elem ih =>
    have hchain := (ih.mono (Nat.zero_le _)).chain
    rw [← chain_withRoom] at hchain
    exact hchain.andThen fun items => .pure _
  | optional inner ih =>
    refine (takes_flag _).andThen fun present => ?_
    cases present with
    | true => exact (ih.mono (Nat.zero_le _)).andThen fun v => .pure _
    | false => exact .pure _
  | struct fields ih => exact (takes_decodeFields ih).andThen fun record => .pure _
  | union disc arms fallback ihd iha ihf =>
    -- The discriminant has given a code by the time that an arm is read, so it took a word.
    intro ctx c v c' hok
    obtain ⟨start, m, hstart, hok⟩ := bind_ok_iff.mp hok
    cases hstart
    obtain ⟨d, m, hdisc, hok⟩ := bind_ok_iff.mp hok
    cases hcode : d.armCode? with
    | none =>
      rw [hcode] at hok
      exact absurd hok failAt_ne_ok
    | some code =>
      rw [hcode] at hok
      have hword := (ihd _ _ _ _ hdisc).mono (four_le_of_armCode? hdisc hcode)
      exact hword.trans
        ((takes_decodeArm iha ihf _ code).andThen (fun arm => .pure _) _ _ _ _ hok)

end LeastSize

/-! ## The check makes no difference -/

/-- The two readers succeed on the same messages, with the same result at the same place. -/
def SameSuccess (x y : Reader α) : Prop :=
  ∀ ctx c a c', x ctx c = .ok a c' ↔ y ctx c = .ok a c'

theorem SameSuccess.refl (x : Reader α) : SameSuccess x x := fun _ _ _ _ => Iff.rfl

theorem SameSuccess.bind {x y : Reader α} {f g : α → Reader β} (hxy : SameSuccess x y)
    (hfg : ∀ a, SameSuccess (f a) (g a)) : SameSuccess (x >>= f) (y >>= g) := by
  intro ctx c b c'
  rw [bind_ok_iff, bind_ok_iff]
  constructor
  · rintro ⟨a, m, hx, hf⟩
    exact ⟨a, m, (hxy _ _ _ _).mp hx, (hfg a _ _ _ _).mp hf⟩
  · rintro ⟨a, m, hy, hg⟩
    exact ⟨a, m, (hxy _ _ _ _).mpr hy, (hfg a _ _ _ _).mpr hg⟩

theorem SameSuccess.symm {x y : Reader α} (h : SameSuccess x y) : SameSuccess y x :=
  fun ctx c a c' => (h ctx c a c').symm

section SameSuccess

variable {check : RoomCheck}

theorem related_anyRoom :
    Related (withRoom check) (withRoom anyRoom) (fun x y => SameSuccess x y) where
  pure _ := .refl _
  bind := SameSuccess.bind
  strict := .refl _
  within _ h := fun _ c a c' => h _ c a c'
  failAt _ _ _ := .refl _
  offset := .refl _
  take _ := .refl _
  placed? _ _ _ := .refl _

/-- If all elements are read, there was room for them. -/
theorem Lenient.elements (h : Lenient check) {x y : Reader α} {minSize : Nat}
    (hxy : SameSuccess x y) (hy : y.Takes minSize) (count : Nat) :
    SameSuccess ((withRoom check).elements minSize x count)
      ((withRoom anyRoom).elements minSize y count) := by
  have hitems := (@related_anyRoom check).repeated hxy 0 count
  intro ctx c items c'
  constructor
  · intro hok
    obtain ⟨⟨⟩, m, hroom, hread⟩ := bind_ok_iff.mp hok
    cases h.still hroom
    exact (hitems _ _ _ _).mp hread
  · intro hok
    obtain ⟨⟨⟩, m, hroom, hread⟩ := bind_ok_iff.mp hok
    obtain ⟨-, rfl⟩ := pure_ok_iff.mp hroom
    have hfits : count * minSize ≤ m.rest.length := by
      rw [repeated_withRoom] at hread
      have := (hy.repeated 0 count _ _ _ _ hread).length_rest
      omega
    exact bind_ok_iff.mpr ⟨(), m, h.passes hfits, (hitems _ _ _ _).mpr hread⟩

/-- **A check that lets pass what fits makes no difference to what can be read.** -/
theorem Lenient.sameSuccess (h : Lenient check) (shape : Shape) :
    SameSuccess ((withRoom check).decode shape) ((withRoom anyRoom).decode shape) := by
  refine related_anyRoom.decode ?_ ?_ shape
  · intro elem count ih
    exact h.elements ih (takes_minSize lenient_anyRoom elem) count
  · intro elem ih
    exact SameSuccess.bind (.refl _) fun flags =>
      (@related_anyRoom check).announced (.refl _) ih flags 0

end SameSuccess

/-- The readers are the ones with their own check. -/
theorem decode_withRoom (shape : Shape) : (withRoom room).decode shape = shape.decode :=
  decode_primitives shape

theorem length_repeated {x : Reader α} {i count : Nat} {ctx : ReadContext} {c c' : Cursor}
    {items : List α} (h : repeated x i count ctx c = .ok items c') : items.length = count := by
  induction count generalizing i c items with
  | zero =>
    obtain ⟨rfl, -⟩ := pure_ok_iff.mp h
    rfl
  | succ count ih =>
    obtain ⟨a, m, -, h⟩ := bind_ok_iff.mp h
    obtain ⟨rest, m', hrest, hpure⟩ := bind_ok_iff.mp h
    obtain ⟨rfl, rfl⟩ := pure_ok_iff.mp hpure
    rw [List.length_cons, ih hrest]

/-- An array that was read fits in what its count was followed by. -/
theorem array_fits {elem : Shape} {extent : Extent} {ctx : ReadContext} {c c' : Cursor}
    {v : Value} (h : (Shape.array elem extent).decode ctx c = .ok v c') :
    ∃ count m items, primitives.count extent ctx c = .ok count m ∧ v = .array items ∧
      items.length = count.toNat ∧ items.length * elem.minSize ≤ m.rest.length := by
  rw [← decode_withRoom] at h
  obtain ⟨count, m, hcount, h⟩ := bind_ok_iff.mp h
  obtain ⟨items, m', hitems, hpure⟩ := bind_ok_iff.mp h
  obtain ⟨rfl, rfl⟩ := pure_ok_iff.mp hpure
  have hfits := (takes_minSize lenient_room elem).elements lenient_room elem.minSize count.toNat
    _ _ _ _ hitems
  obtain ⟨⟨⟩, m'', -, hread⟩ := bind_ok_iff.mp hitems
  rw [repeated_withRoom] at hread
  have hlength := length_repeated hread
  refine ⟨count, m, items, hcount, rfl, hlength, ?_⟩
  have := hfits.length_rest
  rw [hlength]
  omega

end Reader

namespace Shape

open Reader

/-- **The room for an array is a shortcut.** Without it the same messages are read, with the same
values at the same places. Whatever is read takes its least size in line, and an array that is read
fits in what is left of the message after its count; so does every array inside it, for even the
check that refuses all others makes no difference. -/
theorem decode_without_room (shape : Shape) (ctx : ReadContext) (c : Cursor) :
    (∀ v c', shape.decode ctx c = .ok v c' ↔
      (withRoom anyRoom).decode shape ctx c = .ok v c') ∧
    (∀ v c', shape.decode ctx c = .ok v c' → c.Passes shape.minSize c') ∧
    (∀ elem extent v c', shape = .array elem extent → shape.decode ctx c = .ok v c' →
      ∃ count m items, primitives.count extent ctx c = .ok count m ∧ v = .array items ∧
        items.length = count.toNat ∧ items.length * elem.minSize ≤ m.rest.length) ∧
    ∀ v c', shape.decode ctx c = .ok v c' ↔
      (withRoom exactRoom).decode shape ctx c = .ok v c' := by
  have hroom := lenient_room.sameSuccess shape
  have hexact := lenient_exactRoom.sameSuccess shape
  have htakes := takes_minSize lenient_room shape
  rw [decode_withRoom] at hroom htakes
  refine ⟨fun v c' => hroom ctx c v c', fun v c' h => htakes ctx c v c' h, ?_, fun v c' => ?_⟩
  · rintro elem extent v c' rfl h
    exact array_fits h
  · exact (hroom ctx c v c').trans (hexact.symm ctx c v c')

end Shape

end NfsWire
