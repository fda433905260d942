import NfsWire.Proofs.Xdr.Routes

/-!
# The path on a stack

A reader gets the path of the field being read from the one that calls it, so it cannot leave a
wrong one behind. A decoder that is one object, and keeps the path beside the cursor, could: it puts
a segment on the path when it turns to a part and takes one off when it is done with it, and a part
may end early. `StackReader.primitives` is such a decoder. It puts segments on and takes them off
whatever comes of the part.

All its primitives but that leave the path alone, and so each reader made of them does
(`StackReader.decode_primitives`): it reads what the reader reads under the path of the moment, and
leaves the path as it was. After an error the decoder is therefore as good as before, and where it
stands it can read on (`Shape.decode_usable`).
-/

namespace NfsWire

/-- A decoder between two values: where it stands, and the path that it is at. -/
structure Desk where
  cursor : Cursor
  path : FieldPath

/-- A step of such a decoder. The path of the context is not looked at. -/
abbrev StackReader := ReaderT ReadContext (EStateM DecodeError Desk)

namespace StackReader

variable {α β : Type}

/-- What a reader does under the path of the moment. -/
def ofReader (x : Reader α) : StackReader α := fun ctx d =>
  match x { ctx with path := d.path } d.cursor with
  | .ok a c => .ok a { d with cursor := c }
  | .error e c => .error e { d with cursor := c }

/-- Put a segment on the path, read a part, and take one segment off, whether the part was read or
not. -/
def within (segment : Segment) (part : StackReader α) : StackReader α := fun ctx d =>
  match part ctx { d with path := d.path ++ [segment] } with
  | .ok a d' => .ok a { d' with path := d'.path.dropLast }
  | .error e d' => .error e { d' with path := d'.path.dropLast }

def primitives : Primitives StackReader where
  strict := ofReader Reader.primitives.strict
  within := within
  failAt offset fault := ofReader (Reader.failAt offset fault)
  offset := ofReader Reader.offset
  take n := ofReader (Reader.take n)
  placed? wrap ddp n := ofReader (Reader.placed? wrap ddp n)
  room count minSize := ofReader (Reader.room count minSize)
  flags := ofReader Reader.primitives.flags
  spent := return []

theorem ofReader_bind (x : Reader α) (f : α → Reader β) :
    ofReader (x >>= f) = ofReader x >>= fun a => ofReader (f a) := by
  funext ctx d
  show _ = EStateM.bind (ofReader x ctx) (fun a => ofReader (f a) ctx) d
  unfold EStateM.bind ofReader
  cases hx : x { ctx with path := d.path } d.cursor with
  | ok a c =>
    rw [Reader.bind_of_ok hx]
  | error e c =>
    rw [Reader.bind_of_error hx]

/-- The segment that was put on is the one that is taken off. -/
theorem ofReader_within (segment : Segment) (x : Reader α) :
    ofReader (Reader.within segment x) = within segment (ofReader x) := by
  funext ctx d
  unfold ofReader within Reader.within
  dsimp only
  cases x { ctx with path := d.path ++ [segment] } d.cursor with
  | ok a c => simp
  | error e c => simp

theorem related_ofReader :
    Related Reader.primitives primitives (fun x y => y = ofReader x) where
  pure _ := rfl
  bind {_ _ x _ f _} hx hf := by rw [ofReader_bind, hx, funext hf]
  strict := rfl
  within segment hx := by
    show within segment _ = _
    rw [hx]
    exact (ofReader_within segment _).symm
  failAt _ _ _ := rfl
  offset := rfl
  take _ := rfl
  placed? _ _ _ := rfl

/-- **On a stack the path is what it would be without.** -/
theorem decode_primitives (shape : Shape) : primitives.decode shape = ofReader shape.decode := by
  rw [← Reader.decode_primitives]
  refine related_ofReader.decode ?_ ?_ shape
  · intro elem n ih
    exact related_ofReader.bind rfl fun _ => related_ofReader.repeated ih 0 n
  · intro elem ih
    exact related_ofReader.bind rfl fun fuel => related_ofReader.announced rfl ih fuel 0

/-- The decoder after reading a value, however that ended. -/
def after (ctx : ReadContext) (d : Desk) (shape : Shape) : Desk :=
  match primitives.decode shape ctx d with
  | .ok _ d' => d'
  | .error _ d' => d'

section After

variable {ctx : ReadContext} {d : Desk} {message : Bytes}

theorem after_eq (ctx : ReadContext) (d : Desk) (shape : Shape) :
    after ctx d shape =
      { d with cursor := shape.decode.stop { ctx with path := d.path } d.cursor } := by
  unfold after Reader.stop
  rw [decode_primitives]
  unfold ofReader
  cases shape.decode { ctx with path := d.path } d.cursor <;> rfl

/-- Reading a value leaves the path, and takes the cursor forward on its message. -/
theorem after_usable (hd : d.cursor.On message) (shape : Shape) :
    (after ctx d shape).path = d.path ∧ (after ctx d shape).cursor.On message ∧
      d.cursor.offset ≤ (after ctx d shape).cursor.offset := by
  rw [after_eq]
  have hpass := Reader.forward_decode shape { ctx with path := d.path } d.cursor
  exact ⟨rfl, hd.passes hpass, hpass.offset_le⟩

/-- So does reading one value after the other. -/
theorem after_all_usable (hd : d.cursor.On message) (shapes : List Shape) :
    (shapes.foldl (after ctx) d).path = d.path ∧
      (shapes.foldl (after ctx) d).cursor.On message ∧
      d.cursor.offset ≤ (shapes.foldl (after ctx) d).cursor.offset := by
  induction shapes generalizing d with
  | nil => exact ⟨rfl, hd, Nat.le_refl _⟩
  | cons shape shapes ih =>
    obtain ⟨hpath, hon, hforward⟩ := after_usable hd shape
    obtain ⟨hpath', hon', hforward'⟩ := ih hon
    exact ⟨hpath'.trans hpath, hon', Nat.le_trans hforward hforward'⟩

end After

end StackReader

namespace Shape

open StackReader

/-- **A failed reading names the field and leaves the decoder usable.** Whatever a decoder has read
before on its message, and however that ended, it has the path that it had at first. Reading one
more value gives what the reader gives under that path; afterwards the path is still the same, and
the cursor has not gone back and is on the message. An error is that of a node that the reader came
to: its path is the route there behind the path of the decoder, and its offset lies between the
start of the node and the end of the message. -/
theorem decode_usable (ctx : ReadContext) {message : Bytes} {d : Desk} (hd : d.cursor.On message)
    (before : List Shape) (shape : Shape) :
    let d₁ := before.foldl (after ctx) d
    let d₂ := after ctx d₁ shape
    let here := { ctx with path := d.path }
    (d₁.path = d.path ∧ d₁.cursor.On message) ∧
    primitives.decode shape ctx d₁ = (match shape.decode here d₁.cursor with
      | .ok v c => .ok v { d with cursor := c }
      | .error e c => .error e { d with cursor := c }) ∧
    (d₂.path = d.path ∧ d₁.cursor.offset ≤ d₂.cursor.offset ∧
      d₂.cursor.offset ≤ message.length) ∧
    ∀ e c', shape.decode here d₁.cursor = .error e c' →
      ∃ route node start, Reaches here shape d₁.cursor route node start ∧
        node.FailsHere (here.deeper route) start e c' ∧ e.path = d.path ++ route ∧
        start.On message ∧ start.offset ≤ e.offset ∧ e.offset ≤ message.length := by
  intro d₁ d₂ here
  obtain ⟨hpath, hon, -⟩ := after_all_usable hd before
  obtain ⟨hpath', hon', hforward⟩ := after_usable hon shape
  refine ⟨⟨hpath, hon⟩, ?_, ⟨hpath'.trans hpath, hforward, hon'.inside⟩, fun e c' herror => ?_⟩
  · rw [decode_primitives, ofReader, show d₁.path = d.path from hpath]
    cases shape.decode here d₁.cursor <;> rfl
  · obtain ⟨route, node, start, hreaches, hfails, hroute, -, hfrom, hto⟩ :=
      located_of_decode herror
    have hpass := Reader.forward_decode shape here d₁.cursor
    rw [Reader.stop_of_error herror] at hpass
    have hinside := (hon.passes hpass).inside
    exact ⟨route, node, start, hreaches, hfails, hroute, hon.passes hreaches.passes, hfrom,
      by omega⟩

/-- Of two flags the second is 7, and the decoder has failed once before. -/
theorem decode_usable_second_flag :
    let message := Bytes.word 2 ++ Bytes.word 1 ++ Bytes.word 7
    let flags : Shape := .struct [("flags", arrayOf .bool)]
    let d : Desk := ⟨Cursor.at message 0, [.name "body"]⟩
    let d₁ := after {} d (.union .void [] none)
    ∃ c' route node start,
      flags.decode { path := d.path } d₁.cursor = .error
        { fault := .malformed .boolean, path := [.name "body", .name "flags", .index 1],
          offset := 8 } c' ∧
      Reaches { path := d.path } flags d₁.cursor route node start ∧
      [.name "body", .name "flags", .index 1] = d.path ++ route ∧ start.offset ≤ 8 := by
  intro message flags d d₁
  obtain ⟨c', hfails⟩ : ∃ c', flags.decode { path := d.path } d₁.cursor = .error
      { fault := .malformed .boolean, path := [.name "body", .name "flags", .index 1],
        offset := 8 } c' := ⟨⟨[], 12, 0, 0⟩, by rfl⟩
  have hd : d.cursor.On message := Cursor.on_at message 0
  have hlocated := (decode_usable {} hd [.union .void [] none] flags).2.2.2
  obtain ⟨route, node, start, hreaches, -, hpath, -, hoffset, -⟩ := hlocated _ _ hfails
  exact ⟨c', route, node, start, hfails, hreaches, hpath, hoffset⟩

end Shape

end NfsWire
