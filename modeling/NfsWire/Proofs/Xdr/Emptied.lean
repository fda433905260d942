import NfsWire.Proofs.Xdr.Primitives
import NfsWire.Rpc.Program

/-!
# An empty chunk map is none

A message that came with a transport header is read with a chunk map, even if the header lists no
chunks; any other message is read without one. A reader asks the map in one place only, where an
item may have been taken out, and there an empty map and a missing one give the same answer. The
other primitives do not look at the map, and all else is put together from these, so no shape tells
the two apart: results, errors and cursors are the same.
-/

namespace NfsWire

/-- The context with a chunk map in which there is nothing. -/
def ReadContext.emptied (ctx : ReadContext) : ReadContext := { ctx with chunks := some {} }

namespace Reader

variable {α β : Type}

/-- The reader does not tell an empty chunk map from none. -/
def Blind (x : Reader α) : Prop := ∀ ctx, ctx.chunks = none → x ctx.emptied = x ctx

/-- The first reader gives with an empty chunk map what the second gives with none. -/
def SameEmptied (x y : Reader α) : Prop := ∀ ctx, ctx.chunks = none → x ctx.emptied = y ctx

theorem SameEmptied.pure (a : α) : SameEmptied (Pure.pure a) (Pure.pure a) := fun _ _ => rfl

theorem SameEmptied.bind {x y : Reader α} {f g : α → Reader β} (hx : SameEmptied x y)
    (hf : ∀ a, SameEmptied (f a) (g a)) : SameEmptied (x >>= f) (y >>= g) := by
  intro ctx h
  show EStateM.bind (x ctx.emptied) (fun a => f a ctx.emptied) =
    EStateM.bind (y ctx) fun a => g a ctx
  rw [hx ctx h]
  congr 1
  funext a
  exact hf a ctx h

/-- Nothing is found in an empty map. -/
theorem sameEmptied_placed? (wrap : Bytes → Value) (ddp : Bool) (n : Nat) :
    SameEmptied (placed? wrap ddp n) (placed? wrap ddp n) := by
  intro ctx h
  funext c
  have hreads : ({} : ChunkMap).readAt? (c.offset + c.spliced) = none := rfl
  simp [placed?, ReadContext.emptied, h, hreads]

theorem related_sameEmptied : Related primitives primitives SameEmptied where
  pure := .pure
  bind := .bind
  strict _ _ := rfl
  within segment hx ctx h := hx { ctx with path := ctx.path ++ [segment] } h
  failAt _ _ _ _ _ := rfl
  offset _ _ := rfl
  take _ _ _ := rfl
  placed? := sameEmptied_placed?

/-- **No shape tells an empty chunk map from none.** -/
theorem blind_decode (shape : Shape) : shape.decode.Blind := by
  show SameEmptied shape.decode shape.decode
  rw [← decode_primitives]
  refine related_sameEmptied.decode ?_ ?_ shape
  · intro elem count ih
    have hroom : SameEmptied (primitives.room count elem.minSize) _ := fun _ _ => rfl
    exact hroom.bind fun _ => related_sameEmptied.repeated ih 0 count
  · intro elem ih
    have hflags : SameEmptied primitives.flags primitives.flags := fun _ _ => rfl
    exact hflags.bind fun fuel => related_sameEmptied.announced (.pure []) ih fuel 0

end Reader

/-- **A body is the same with an empty chunk map as without one.** -/
theorem Rpc.decodeBody_emptied (program version procedure : UInt32) (kind : Rpc.BodyKind)
    (message : Bytes) (offset : Nat) (strict : Bool) :
    Rpc.decodeBody program version procedure kind message offset strict (some {}) =
      Rpc.decodeBody program version procedure kind message offset strict none := by
  unfold Rpc.decodeBody
  cases Rpc.procedure? program version procedure with
  | none => rfl
  | some found =>
    have hblind := Reader.blind_decode (found.2.shape kind)
      { strict, chunks := none, useWrites := kind == .results } rfl
    simp only [ReadContext.emptied] at hblind
    simp only [hblind]

end NfsWire
