import NfsWire.Proofs.Xdr.Room

/-!
# Readers go forward

A reader that fails keeps its cursor, so where it stands afterwards matters as much as after a
success. `Reader.stop` is that place. It is never in front of the place where reading began, and
what lies between the two are the octets that were passed over: each primitive either leaves the
octets alone or takes some off their front (`Reader.forward_decode`).
-/

namespace NfsWire

theorem Cursor.Passes.offset_le {c c' : Cursor} {n : Nat} (h : c.Passes n c') :
    c.offset + n ≤ c'.offset := by
  obtain ⟨data, hn, -, hoffset⟩ := h
  omega

namespace Reader

variable {α β : Type}

/-- Where the reader stands when it is done, however it ends. -/
def stop (x : Reader α) (ctx : ReadContext) (c : Cursor) : Cursor :=
  match x ctx c with
  | .ok _ c' => c'
  | .error _ c' => c'

section Stop

variable {x : Reader α} {f : α → Reader β} {ctx : ReadContext} {c c' : Cursor}

theorem stop_of_ok {a : α} (h : x ctx c = .ok a c') : x.stop ctx c = c' := by
  rw [stop, h]

theorem stop_of_error {e : DecodeError} (h : x ctx c = .error e c') : x.stop ctx c = c' := by
  rw [stop, h]

theorem stop_bind_of_ok {a : α} (h : x ctx c = .ok a c') :
    (x >>= f).stop ctx c = (f a).stop ctx c' := by
  rw [stop, bind_of_ok h, stop]

theorem stop_bind_of_error {e : DecodeError} (h : x ctx c = .error e c') :
    (x >>= f).stop ctx c = c' :=
  stop_of_error (bind_of_error h)

end Stop

/-- However it ends, the reader has only passed over octets. -/
def Forward (x : Reader α) : Prop :=
  ∀ (ctx : ReadContext) (c : Cursor), c.Passes 0 (x.stop ctx c)

theorem Forward.pure (a : α) : (Pure.pure a : Reader α).Forward := fun _ c => .refl c

theorem Forward.bind {x : Reader α} {f : α → Reader β} (hx : x.Forward)
    (hf : ∀ a, (f a).Forward) : (x >>= f).Forward := by
  intro ctx c
  have hfirst := hx ctx c
  cases h : x ctx c with
  | ok a m =>
    rw [stop_of_ok h] at hfirst
    rw [stop_bind_of_ok h]
    exact hfirst.trans (hf a ctx m)
  | error e m =>
    rw [stop_of_error h] at hfirst
    rw [stop_bind_of_error h]
    exact hfirst

/-! ## The primitives -/

theorem forward_take (n : Nat) : (take n).Forward := by
  intro ctx c
  unfold stop take
  dsimp only
  by_cases hshort : (c.rest.take n).length < n
  · rw [if_pos hshort]
    exact .refl c
  · rw [if_neg hshort]
    rw [List.length_take] at hshort
    refine ⟨c.rest.take n, Nat.zero_le _, (List.take_append_drop n c.rest).symm, ?_⟩
    rw [List.length_take]
    show c.offset + n = _
    omega

/-- Octets that were moved out of the message are not passed over. -/
theorem forward_placed? (wrap : Bytes → Value) (ddp : Bool) (n : Nat) :
    (placed? wrap ddp n).Forward := by
  intro ctx c
  obtain hnone | ⟨chunk, m, hchunk, hrest, hoffset⟩ | ⟨what, hrefused⟩ :=
    placed?_cases wrap ddp n ctx c
  · rw [stop_of_ok hnone]
    exact .refl c
  · rw [stop_of_ok hchunk]
    exact .still hrest hoffset
  · rw [stop_of_error hrefused]
    exact .refl c

theorem forward_room (count minSize : Nat) : (room count minSize).Forward := by
  intro ctx c
  unfold stop room
  dsimp only
  by_cases hshort : c.rest.length < need count minSize
  · rw [if_pos hshort]
    exact .refl c
  · rw [if_neg hshort]
    exact .refl c

theorem related_forward : Related primitives primitives (fun x _ => x.Forward) where
  pure := .pure
  bind := .bind
  strict := fun _ c => .refl c
  within _ h := fun _ c => h _ c
  failAt _ _ _ := fun _ c => .refl c
  offset := fun _ c => .refl c
  take := forward_take
  placed? := forward_placed?

/-! ## Shapes -/

/-- **However reading ends, the cursor has only gone forward.** -/
theorem forward_decode (shape : Shape) : shape.decode.Forward := by
  rw [← decode_primitives]
  refine related_forward.decode ?_ ?_ shape
  · intro elem count ih
    exact (forward_room count elem.minSize).bind fun _ =>
      @Related.repeated _ _ _ _ _ _ _ _ related_forward _ (primitives.decode elem) ih 0 count
  · intro elem ih
    have hflags : primitives.flags.Forward := fun _ c => .refl c
    exact hflags.bind fun fuel =>
      @Related.announced _ _ _ _ _ _ _ _ related_forward (.pure []) _ (primitives.decode elem) ih
        fuel 0

end Reader

end NfsWire
