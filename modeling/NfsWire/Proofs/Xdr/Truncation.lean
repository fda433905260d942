import NfsWire.Proofs.Xdr.Room

/-!
# More of the message

A message may have arrived in part only, and it is read nevertheless. What comes of that is kept
when the rest arrives, but for one answer: that octets are missing. Then as many are missing as the
answer says, less those that have come, at the same place in the same field.

Nearly all of it is put together from `take`, which alone reaches for the end of the message. The
other two that look there keep to the same rule. The room for an array is less the octets that came
in the meantime, whether or not the elements will need them. A chain stops after so many flags as
the message can hold; more octets make the bound larger, but the chain has ended before it came into
sight (`announced_of_le`).
-/

namespace NfsWire

/-- The same place with more of the message behind it. -/
def Cursor.more (c : Cursor) (s : Bytes) : Cursor := { c with rest := c.rest ++ s }

theorem Cursor.more_at {message : Bytes} {offset : Nat} (h : offset ≤ message.length)
    (s : Bytes) : (Cursor.at message offset).more s = Cursor.at (message ++ s) offset := by
  unfold Cursor.more Cursor.at
  rw [List.drop_append_of_le_length h, Nat.min_eq_left h,
    Nat.min_eq_left (Nat.le_trans h (by simp))]

namespace Reader

variable {α β : Type}

/-! ## What may become of an answer -/

/-- The second run had `s` more to read than the first. -/
inductive Extends (s : Bytes) :
    (first second : EStateM.Result DecodeError Cursor α) → Prop where
  | ok (a : α) (c : Cursor) : Extends s (.ok a c) (.ok a (c.more s))
  | final {e : DecodeError} (c : Cursor) :
    e.fault.isTruncated = false → Extends s (.error e c) (.error e (c.more s))
  /-- Of `n` octets that were missing, the second run lacks those that did not come. -/
  | truncated {e : DecodeError} {n : Nat} {c : Cursor}
    {second : EStateM.Result DecodeError Cursor α} :
    e.fault = .truncated n → 0 < n →
    (s.length < n →
      second = .error { e with fault := .truncated (n - s.length) } (c.more s)) →
    Extends s (.error e c) second

section Extends

variable {s : Bytes} {a : α} {c : Cursor} {e : DecodeError} {n : Nat}
  {second : EStateM.Result DecodeError Cursor α}

theorem Extends.of_ok (h : Extends s (.ok a c) second) : second = .ok a (c.more s) := by
  cases h
  rfl

theorem Extends.of_final (h : Extends s (.error e c) second) (he : e.fault.isTruncated = false) :
    second = .error e (c.more s) := by
  cases h with
  | final => rfl
  | truncated hfault =>
    rw [hfault] at he
    cases he

theorem Extends.of_truncated (h : Extends s (.error e c) second) (he : e.fault = .truncated n) :
    0 < n ∧ (s.length < n →
      second = .error { e with fault := .truncated (n - s.length) } (c.more s)) := by
  cases h with
  | final _ hfinal =>
    rw [he] at hfinal
    cases hfinal
  | truncated hfault hpos hless =>
    rw [hfault] at he
    cases he
    exact ⟨hpos, hless⟩

end Extends

/-- To read more keeps all answers but the provisional one. -/
def Provisional (x : Reader α) : Prop := ∀ ctx c s, Extends s (x ctx c) (x ctx (c.more s))

/-! ## Sequences -/

theorem Provisional.pure (a : α) : (Pure.pure a : Reader α).Provisional :=
  fun _ c _ => .ok a c

theorem Provisional.bind {x : Reader α} {f : α → Reader β} (hx : x.Provisional)
    (hf : ∀ a, (f a).Provisional) : (x >>= f).Provisional := by
  intro ctx c s
  have hfirst := hx ctx c s
  show Extends s (EStateM.bind (x ctx) (fun a => f a ctx) c)
    (EStateM.bind (x ctx) (fun a => f a ctx) (c.more s))
  unfold EStateM.bind
  generalize x ctx c = first, x ctx (c.more s) = second at hfirst
  cases hfirst with
  | ok a m => exact hf a ctx m s
  | final m hfinal => exact .final m hfinal
  | truncated hfault hpos hless =>
    refine .truncated hfault hpos fun hs => ?_
    rw [hless hs]

theorem Provisional.failAt (offset : Nat) {fault : Fault} (h : fault.isTruncated = false) :
    (failAt offset fault : Reader α).Provisional :=
  fun _ c _ => .final c h

/-! ## Where the end of the message is looked at -/

theorem provisional_take (n : Nat) : (take n).Provisional := by
  intro ctx c s
  have hmore : (c.more s).rest = c.rest ++ s := rfl
  unfold take
  dsimp only
  rw [hmore, List.length_take, List.length_take, List.length_append]
  split
  next hshort =>
    refine .truncated rfl (by omega) fun hs => ?_
    rw [if_pos (by omega), show n - min n (c.rest.length + s.length) =
      n - min n c.rest.length - s.length by omega]
    rfl
  next henough =>
    have hn : n ≤ c.rest.length := by omega
    rw [if_neg (by omega), List.take_append_of_le_length hn, List.drop_append_of_le_length hn]
    exact .ok _ _

theorem provisional_room (count minSize : Nat) : (room count minSize).Provisional := by
  intro ctx c s
  have hmore : (c.more s).rest = c.rest ++ s := rfl
  unfold room
  dsimp only
  rw [hmore, List.length_append]
  split
  next hshort =>
    refine .truncated rfl (by omega) fun hs => ?_
    rw [if_pos (by omega), Nat.sub_add_eq]
    rfl
  next henough =>
    rw [if_neg (by omega)]
    exact .ok () c

/-- The chunks are not part of the message. -/
theorem provisional_placed? (wrap : Bytes → Value) (ddp : Bool) (n : Nat) :
    (placed? wrap ddp n).Provisional := by
  intro ctx c s
  unfold placed?
  cases ctx.chunks with
  | none => exact .ok none c
  | some chunks =>
    have hoffset : (c.more s).offset = c.offset := rfl
    have hspliced : (c.more s).spliced = c.spliced := rfl
    have hwrites : (c.more s).writesUsed = c.writesUsed := rfl
    dsimp only
    rw [hoffset, hspliced, hwrites]
    split
    · split
      · exact .final c rfl
      · exact .ok _ _
    · split
      · split
        · split
          · exact .final c rfl
          · exact .ok _ _
        · exact .ok none c
      · exact .ok none c

theorem related_provisional : Related primitives primitives (fun x _ => x.Provisional) where
  pure a := .pure a
  bind := .bind
  strict := fun ctx c _ => .ok ctx.strict c
  within _ h := fun _ c s => h _ c s
  failAt offset _ h := .failAt offset h
  offset := fun _ c _ => .ok c.offset c
  take := provisional_take
  placed? := provisional_placed?

/-- What is read one after the other keeps to the rule if each part does. -/
theorem Provisional.repeated {x : Reader α} (hx : x.Provisional) (i count : Nat) :
    (primitives.repeated x i count).Provisional :=
  @Related.repeated _ _ _ _ _ _ _ _ related_provisional x x hx i count

theorem Provisional.announced {x : Reader α} (hx : x.Provisional) (fuel i : Nat) :
    (announced x fuel i).Provisional := by
  rw [← announced_primitives]
  exact @Related.announced _ _ _ _ _ _ _ _ related_provisional (.pure []) x x hx fuel i

/-! ## Chains -/

theorem bind_congr_run {x y : Reader α} {f g : α → Reader β} {ctx : ReadContext} {c : Cursor}
    (hxy : x ctx c = y ctx c) (hfg : ∀ a m, x ctx c = .ok a m → f a ctx m = g a ctx m) :
    (x >>= f) ctx c = (y >>= g) ctx c := by
  show EStateM.bind (x ctx) (fun a => f a ctx) c = EStateM.bind (y ctx) (fun a => g a ctx) c
  unfold EStateM.bind
  rw [← hxy]
  cases h : x ctx c with
  | ok a m => exact hfg a m h
  | error e m => rfl

/-- Flags that the message cannot hold are not read. -/
theorem announced_of_le {x : Reader α} (hx : x.Takes 0) {ctx : ReadContext} {c : Cursor}
    {fuel k i : Nat} (hfuel : c.rest.length / 4 < fuel) (hk : fuel ≤ k) :
    announced x k i ctx c = announced x fuel i ctx c := by
  induction fuel generalizing k i c with
  | zero => omega
  | succ fuel ih =>
    obtain ⟨k, rfl⟩ : ∃ k', k = k' + 1 := ⟨k - 1, by omega⟩
    refine bind_congr_run rfl fun more m hflag => ?_
    cases more with
    | false => rfl
    | true =>
      -- The flag took a word, so the bound that is left is still beyond the message.
      have hword := (takes_flag _ _ _ _ _ hflag).length_rest
      refine bind_congr_run rfl fun a m' helem => ?_
      have hafter := (hx.within _ _ _ _ _ helem).length_rest
      exact bind_congr_run (ih (by omega) (by omega)) fun _ _ _ => rfl

theorem provisional_chain {x : Reader α} (hx : x.Provisional) (htakes : x.Takes 0) :
    (chain x).Provisional := by
  intro ctx c s
  have hbound : c.rest.length / 4 + 1 ≤ (c.more s).rest.length / 4 + 1 := by
    show _ ≤ (c.rest ++ s).length / 4 + 1
    rw [List.length_append]
    omega
  have h := hx.announced ((c.more s).rest.length / 4 + 1) 0 ctx c s
  rw [announced_of_le htakes (Nat.lt_succ_self _) hbound] at h
  exact h

/-- **To read more keeps all answers but that octets are missing.** -/
theorem provisional_decode (shape : Shape) : shape.decode.Provisional := by
  rw [← decode_primitives]
  refine related_provisional.decode ?_ ?_ shape
  · intro elem count ih
    exact (provisional_room count elem.minSize).bind fun _ => ih.repeated 0 count
  · intro elem ih
    rw [chain_primitives]
    have htakes := takes_minSize lenient_room elem
    rw [decode_withRoom, ← decode_primitives] at htakes
    exact provisional_chain ih (htakes.mono (Nat.zero_le _))

end Reader

namespace Shape

open Reader

/-- A reader that began inside the message stays inside. -/
theorem offset_le_of_decode {shape : Shape} {ctx : ReadContext} {message : Bytes} {offset : Nat}
    {v : Value} {c : Cursor} (h : shape.decode ctx (Cursor.at message offset) = .ok v c) :
    c.offset ≤ message.length := by
  have htakes := takes_minSize lenient_room shape
  rw [decode_withRoom] at htakes
  obtain ⟨data, -, hrest, hoffset⟩ := htakes _ _ _ _ h
  have hlength := congrArg List.length hrest
  simp only [Cursor.at, List.length_drop, List.length_append] at hlength hoffset
  omega

/-- **That octets are missing is the only provisional answer.** What is read from a message is read
from each longer one, and what is refused for another reason is refused there in the same way. Where
octets are missing, there are as many fewer missing as came, up to the last of them. So all that
can come of a message that ends before the value does is that octets are missing. -/
theorem decode_more (shape : Shape) (ctx : ReadContext) (message : Bytes) (offset : Nat)
    (h : offset ≤ message.length) :
    (∀ v c, shape.decode ctx (Cursor.at message offset) = .ok v c →
      ∀ s, ∃ c', shape.decode ctx (Cursor.at (message ++ s) offset) = .ok v c' ∧
        c'.offset = c.offset) ∧
    (∀ e c, shape.decode ctx (Cursor.at message offset) = .error e c →
      e.fault.isTruncated = false →
      ∀ s, ∃ c', shape.decode ctx (Cursor.at (message ++ s) offset) = .error e c') ∧
    (∀ e c n, shape.decode ctx (Cursor.at message offset) = .error e c →
      e.fault = .truncated n →
      0 < n ∧ ∀ s : Bytes, s.length < n →
        ∃ c', shape.decode ctx (Cursor.at (message ++ s) offset) =
          .error { e with fault := .truncated (n - s.length) } c') ∧
    ∀ v c, shape.decode ctx (Cursor.at message offset) = .ok v c →
      ∀ m, offset ≤ m → m < c.offset →
        ∃ e n c', shape.decode ctx (Cursor.at (message.take m) offset) = .error e c' ∧
          e.fault = .truncated n := by
  have hmore {b : Bytes} (hb : offset ≤ b.length) (s : Bytes) :
      Extends s (shape.decode ctx (Cursor.at b offset))
        (shape.decode ctx (Cursor.at (b ++ s) offset)) := by
    rw [← Cursor.more_at hb]
    exact provisional_decode shape ctx _ s
  refine ⟨fun v c hok s => ?_, fun e c herr hfinal s => ?_, fun e c n herr htrunc => ?_,
    fun v c hok m hfrom hm => ?_⟩
  · have hs := hmore h s
    rw [hok] at hs
    exact ⟨c.more s, hs.of_ok, rfl⟩
  · have hs := hmore h s
    rw [herr] at hs
    exact ⟨c.more s, hs.of_final hfinal⟩
  · have hall (s : Bytes) := hmore h s
    rw [herr] at hall
    exact ⟨((hall []).of_truncated htrunc).1,
      fun s hs => ⟨c.more s, ((hall s).of_truncated htrunc).2 hs⟩⟩
  · -- What else could come of the first `m` octets would have come of the whole message.
    have hinside := offset_le_of_decode hok
    have hlength : (message.take m).length = m := by
      rw [List.length_take]
      omega
    have hs := hmore (b := message.take m) (by omega) (message.drop m)
    rw [List.take_append_drop, hok] at hs
    cases hcut : shape.decode ctx (Cursor.at (message.take m) offset) with
    | ok v' c' =>
      rw [hcut] at hs
      have hend := offset_le_of_decode hcut
      cases hs.of_ok
      have hkept : (c'.more (message.drop m)).offset = c'.offset := rfl
      omega
    | error e c' =>
      rw [hcut] at hs
      cases hfault : e.fault with
      | truncated n => exact ⟨e, n, c', rfl, hfault⟩
      | _ => cases hs.of_final (by rw [hfault]; rfl)

/-- Of an array of two words the count has come, and then three octets more. -/
theorem decode_more_count :
    ∃ c, (Shape.arrayOf .uint).decode {} (Cursor.at [0, 0, 0, 2, 0, 0, 0] 0) =
      .error { fault := .truncated 5, path := [], offset := 4 } c := by
  have h := decode_more (.arrayOf .uint) {} [0, 0, 0, 2] 0 (by decide)
  have hcount := h.2.2.1 { fault := .truncated 8, path := [], offset := 4 }
    { rest := [], offset := 4 } 8 rfl rfl
  exact hcount.2 [0, 0, 0] (by decide)

end Shape

end NfsWire
