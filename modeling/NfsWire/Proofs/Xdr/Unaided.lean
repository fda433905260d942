import NfsWire.Proofs.Xdr.Trace

/-!
# Readers that do not look at the chunks

Words, codes, counts and octets in line are read from the message alone. What was taken out of the
message is asked for only where an item may have been, so everything else reads the same with any
chunk map, and with none. This is shown for the primitives, and it passes to what is put together
from them.
-/

namespace NfsWire

namespace Reader

variable {α β : Type}

/-- The reader does not look at the chunks. -/
def Unaided (x : Reader α) : Prop :=
  ∀ (ctx : ReadContext) (chunks : Option ChunkMap), x { ctx with chunks } = x ctx

/-! ## Putting readers together -/

theorem Unaided.pure (a : α) : (Pure.pure a : Reader α).Unaided := fun _ _ => rfl

theorem Unaided.bind {x : Reader α} {f : α → Reader β} (hx : x.Unaided)
    (hf : ∀ a, (f a).Unaided) : (x >>= f).Unaided := by
  intro ctx chunks
  show EStateM.bind (x { ctx with chunks }) (fun a => f a { ctx with chunks }) =
    EStateM.bind (x ctx) fun a => f a ctx
  rw [hx ctx chunks]
  congr 1
  funext a
  exact hf a ctx chunks

theorem Unaided.read {f : ReadContext → Reader β}
    (hf : ∀ (ctx : ReadContext) (chunks : Option ChunkMap), f { ctx with chunks } = f ctx)
    (h : ∀ ctx, (f ctx).Unaided) : (MonadReader.read >>= f).Unaided := by
  intro ctx chunks
  show f { ctx with chunks } { ctx with chunks } = f ctx ctx
  rw [hf]
  exact h ctx ctx chunks

/-! ## Primitives -/

theorem unaided_failAt (offset : Nat) (fault : Fault) : (failAt offset fault : Reader α).Unaided :=
  fun _ _ => rfl

theorem unaided_offset : offset.Unaided := fun _ _ => rfl

theorem unaided_take (n : Nat) : (take n).Unaided := fun _ _ => rfl

theorem unaided_uint : uint.Unaided := fun _ _ => rfl

theorem unaided_int : int.Unaided := fun _ _ => rfl

theorem unaided_uhyper : uhyper.Unaided := fun _ _ => rfl

theorem unaided_hyper : hyper.Unaided := fun _ _ => rfl

theorem unaided_room (count minSize : Nat) : (room count minSize).Unaided := fun _ _ => rfl

theorem unaided_flag (what : Malformation) : (flag what).Unaided := by
  refine unaided_offset.bind fun start => unaided_uint.bind fun w => ?_
  split
  · exact .pure _
  · split
    · exact .pure _
    · exact unaided_failAt _ _

theorem unaided_length (max : Option UInt32) : (length max).Unaided := by
  refine unaided_offset.bind fun start => unaided_uint.bind fun n => ?_
  split
  · split
    · exact unaided_failAt _ _
    · exact .pure _
  · exact .pure _

theorem unaided_count (extent : Extent) : (count extent).Unaided := by
  obtain size | max := extent
  · exact .pure size
  · exact unaided_length max

theorem unaided_octets (n : Nat) : (octets n).Unaided := by
  have hpadding : (padding n).Unaided := by
    refine unaided_offset.bind fun start => (unaided_take _).bind fun zeros => ?_
    split
    · exact unaided_failAt _ _
    · exact .pure _
  exact (unaided_take n).bind fun data => hpadding.bind fun _ => .pure _

theorem unaided_enum (table : Table) (fixed : Bool) : (enum table fixed).Unaided := by
  -- Of the context only the mode is looked at, which is not about chunks.
  refine unaided_offset.bind fun start => unaided_int.bind fun code =>
    .read (fun _ _ => rfl) fun ctx => ?_
  split
  · exact .pure _
  · exact unaided_failAt _ _

end Reader

end NfsWire
