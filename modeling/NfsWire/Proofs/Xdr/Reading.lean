import NfsWire.Proofs.Xdr.Layout
import NfsWire.Xdr.Decode

/-!
# What a reader takes

Each primitive reader is described by one equivalence: it succeeds with a result at a new cursor
exactly when the octets between the two cursors are the ones a writer has for that result.
`Cursor.Reads` is the relation between the cursors. Read from left to right the equivalences say
that readers accept nothing but what is written, from right to left that they accept all of it, so
both halves of every later round trip come from the same list.

`bind_ok_iff`, `bind_error_iff` and `pure_ok_iff` take a sequence of readers apart, `bind_of_ok`
and `bind_of_error` run it.
-/

namespace NfsWire

/-! ## Cursors -/

/-- Where the cursor stands in the message as it was before anything was taken out. -/
def Cursor.position (c : Cursor) : Nat := c.offset + c.spliced

/-- From `c` to `c'` exactly these octets are read. -/
structure Cursor.Reads (c : Cursor) (data : Bytes) (c' : Cursor) : Prop where
  rest : c.rest = data ++ c'.rest
  offset : c'.offset = c.offset + data.length
  spliced : c'.spliced = c.spliced
  writesUsed : c'.writesUsed = c.writesUsed

namespace Cursor

theorem reads_nil {c c' : Cursor} : c.Reads [] c' ↔ c' = c := by
  constructor
  · intro h
    obtain ⟨h1, h2, h3, h4⟩ := h
    cases c; cases c'
    simp_all
  · rintro rfl
    exact ⟨rfl, rfl, rfl, rfl⟩

theorem reads_append {c c' : Cursor} {x y : Bytes} :
    c.Reads (x ++ y) c' ↔ ∃ m, c.Reads x m ∧ m.Reads y c' := by
  constructor
  · intro h
    obtain ⟨hrest, hoffset, hspliced, hwrites⟩ := h
    refine ⟨{ c with rest := y ++ c'.rest, offset := c.offset + x.length }, ⟨?_, rfl, rfl, rfl⟩,
      ⟨rfl, ?_, hspliced, hwrites⟩⟩
    · rw [hrest, List.append_assoc]
    · rw [hoffset, List.length_append, Nat.add_assoc]
  · intro h
    obtain ⟨m, hx, hy⟩ := h
    refine ⟨?_, ?_, hy.spliced.trans hx.spliced, hy.writesUsed.trans hx.writesUsed⟩
    · rw [hx.rest, hy.rest, List.append_assoc]
    · rw [hy.offset, hx.offset, List.length_append, Nat.add_assoc]

theorem Reads.position {c c' : Cursor} {data : Bytes} (h : c.Reads data c') :
    c'.position = c.position + data.length := by
  unfold Cursor.position
  rw [h.offset, h.spliced]
  omega

theorem Reads.length_rest {c c' : Cursor} {data : Bytes} (h : c.Reads data c') :
    c.rest.length = data.length + c'.rest.length := by
  rw [h.rest, List.length_append]

end Cursor

namespace Reader

variable {α β : Type} {ctx : ReadContext} {c c' : Cursor}

/-! ## Sequences -/

theorem bind_ok_iff {x : Reader α} {f : α → Reader β} {b : β} :
    (x >>= f) ctx c = .ok b c' ↔ ∃ a m, x ctx c = .ok a m ∧ f a ctx m = .ok b c' := by
  show EStateM.bind (x ctx) (fun a => f a ctx) c = .ok b c' ↔ _
  unfold EStateM.bind
  cases h : x ctx c with
  | ok a m =>
    constructor
    · intro hf; exact ⟨a, m, rfl, hf⟩
    · rintro ⟨a', m', he, hf⟩; cases he; exact hf
  | error e m =>
    constructor
    · intro hf; cases hf
    · rintro ⟨a', m', he, -⟩; cases he

theorem bind_of_ok {x : Reader α} {f : α → Reader β} {a : α} {m : Cursor}
    (h : x ctx c = .ok a m) : (x >>= f) ctx c = f a ctx m := by
  show EStateM.bind (x ctx) (fun a => f a ctx) c = _
  simp only [EStateM.bind, h]

theorem bind_of_error {x : Reader α} {f : α → Reader β} {e : DecodeError}
    (h : x ctx c = .error e c') : (x >>= f) ctx c = .error e c' := by
  show EStateM.bind (x ctx) (fun a => f a ctx) c = _
  simp only [EStateM.bind, h]

/-- A sequence fails in its first reader, or in what follows when that one has read. -/
theorem bind_error_iff {x : Reader α} {f : α → Reader β} {e : DecodeError} :
    (x >>= f) ctx c = .error e c' ↔
      x ctx c = .error e c' ∨ ∃ a m, x ctx c = .ok a m ∧ f a ctx m = .error e c' := by
  cases h : x ctx c with
  | ok a m =>
    rw [bind_of_ok h]
    constructor
    · exact fun hf => .inr ⟨a, m, rfl, hf⟩
    · rintro (hx | ⟨a', m', heq, hf⟩)
      · cases hx
      · cases heq
        exact hf
  | error e' m =>
    rw [bind_of_error h]
    constructor
    · intro heq
      cases heq
      exact .inl rfl
    · rintro (heq | ⟨a', m', heq, -⟩)
      · cases heq
        rfl
      · cases heq

/-- What is read is only wrapped, so it is the reading that failed. -/
theorem error_of_wrapped {x : Reader α} {wrap : α → β} {e : DecodeError}
    (h : (do return wrap (← x) : Reader β) ctx c = .error e c') : x ctx c = .error e c' := by
  rcases bind_error_iff.mp h with hx | ⟨a, m, -, hwrap⟩
  · exact hx
  · cases hwrap

theorem pure_ok_iff {a b : α} : (pure a : Reader α) ctx c = .ok b c' ↔ b = a ∧ c' = c := by
  show (EStateM.Result.ok a c : EStateM.Result DecodeError Cursor α) = .ok b c' ↔ _
  constructor
  · intro h; cases h; exact ⟨rfl, rfl⟩
  · rintro ⟨rfl, rfl⟩; rfl

theorem map_ok_iff {f : α → β} {x : Reader α} {b : β} :
    (f <$> x) ctx c = .ok b c' ↔ ∃ a, x ctx c = .ok a c' ∧ b = f a := by
  rw [← bind_pure_comp, bind_ok_iff]
  constructor
  · intro h
    obtain ⟨a, m, hx, hf⟩ := h
    obtain ⟨rfl, rfl⟩ := pure_ok_iff.mp hf
    exact ⟨a, hx, rfl⟩
  · intro h
    obtain ⟨a, hx, rfl⟩ := h
    exact ⟨a, c', hx, pure_ok_iff.mpr ⟨rfl, rfl⟩⟩

theorem failAt_ne_ok {offset : Nat} {fault : Fault} {a : α} :
    (failAt offset fault : Reader α) ctx c ≠ .ok a c' := nofun

theorem offset_bind_apply (f : Nat → Reader α) : (offset >>= f) ctx c = f c.offset ctx c := rfl

/-! ## Words -/

theorem take_ok_iff {n : Nat} {data : Bytes} :
    take n ctx c = .ok data c' ↔ data.length = n ∧ c.Reads data c' := by
  unfold take
  constructor
  · intro h
    dsimp only at h
    split at h
    · exact absurd h failAt_ne_ok
    · rename_i hlen
      cases h
      have hn : (c.rest.take n).length = n := by
        rw [List.length_take] at hlen ⊢
        omega
      exact ⟨hn, ⟨(List.take_append_drop n c.rest).symm, by rw [hn], rfl, rfl⟩⟩
  · intro h
    obtain ⟨rfl, h⟩ := h
    have htake : c.rest.take data.length = data := by rw [h.rest, List.take_left]
    have hdrop : c.rest.drop data.length = c'.rest := by rw [h.rest, List.drop_left]
    have hc' : { c with rest := c'.rest, offset := c.offset + data.length } = c' := by
      rw [← h.offset, ← h.spliced, ← h.writesUsed]
    dsimp only
    rw [htake, hdrop, hc', if_neg (Nat.lt_irrefl _)]

theorem number_ok_iff {width n : Nat} :
    number width ctx c = .ok n c' ↔
      n < Nat.pow 256 width ∧ c.Reads (Bytes.ofNat width n) c' := by
  rw [number, bind_ok_iff]
  constructor
  · intro h
    obtain ⟨data, m, htake, hpure⟩ := h
    obtain ⟨rfl, rfl⟩ := pure_ok_iff.mp hpure
    obtain ⟨rfl, h⟩ := take_ok_iff.mp htake
    rw [Bytes.ofNat_toNat]
    exact ⟨Bytes.toNat_lt data, h⟩
  · intro h
    obtain ⟨hn, h⟩ := h
    refine ⟨Bytes.ofNat width n, c', take_ok_iff.mpr ⟨Bytes.length_ofNat .., h⟩,
      pure_ok_iff.mpr ⟨?_, rfl⟩⟩
    rw [Bytes.toNat_ofNat, Nat.mod_eq_of_lt hn]

theorem uint_ok_iff {w : UInt32} : uint ctx c = .ok w c' ↔ c.Reads (Bytes.word w) c' := by
  rw [uint, bind_ok_iff]
  constructor
  · intro h
    obtain ⟨n, m, hn, hpure⟩ := h
    obtain ⟨rfl, rfl⟩ := pure_ok_iff.mp hpure
    obtain ⟨hlt, h⟩ := number_ok_iff.mp hn
    rw [Bytes.word, UInt32.toNat_ofNat_of_lt' hlt]
    exact h
  · intro h
    exact ⟨w.toNat, c', number_ok_iff.mpr ⟨w.toNat_lt, h⟩, pure_ok_iff.mpr ⟨by simp, rfl⟩⟩

theorem int_ok_iff {v : Int32} :
    int ctx c = .ok v c' ↔ c.Reads (Bytes.word v.toUInt32) c' := by
  rw [int, bind_ok_iff]
  constructor
  · intro h
    obtain ⟨w, m, hw, hpure⟩ := h
    obtain ⟨rfl, rfl⟩ := pure_ok_iff.mp hpure
    exact uint_ok_iff.mp hw
  · intro h
    exact ⟨v.toUInt32, c', uint_ok_iff.mpr h, pure_ok_iff.mpr ⟨by simp, rfl⟩⟩

theorem uhyper_ok_iff {w : UInt64} :
    uhyper ctx c = .ok w c' ↔ c.Reads (Bytes.ofNat 8 w.toNat) c' := by
  rw [uhyper, bind_ok_iff]
  constructor
  · intro h
    obtain ⟨n, m, hn, hpure⟩ := h
    obtain ⟨rfl, rfl⟩ := pure_ok_iff.mp hpure
    obtain ⟨hlt, h⟩ := number_ok_iff.mp hn
    rw [UInt64.toNat_ofNat_of_lt' hlt]
    exact h
  · intro h
    exact ⟨w.toNat, c', number_ok_iff.mpr ⟨w.toNat_lt, h⟩, pure_ok_iff.mpr ⟨by simp, rfl⟩⟩

theorem hyper_ok_iff {v : Int64} :
    hyper ctx c = .ok v c' ↔ c.Reads (Bytes.ofNat 8 v.toUInt64.toNat) c' := by
  rw [hyper, bind_ok_iff]
  constructor
  · intro h
    obtain ⟨w, m, hw, hpure⟩ := h
    obtain ⟨rfl, rfl⟩ := pure_ok_iff.mp hpure
    exact uhyper_ok_iff.mp hw
  · intro h
    exact ⟨v.toUInt64, c', uhyper_ok_iff.mpr h, pure_ok_iff.mpr ⟨by simp, rfl⟩⟩

/-- The word of a flag. -/
def flagWord (b : Bool) : Bytes := Bytes.word (if b then 1 else 0)

theorem flag_ok_iff {what : Malformation} {b : Bool} :
    flag what ctx c = .ok b c' ↔ c.Reads (flagWord b) c' := by
  rw [flag, offset_bind_apply, bind_ok_iff]
  constructor
  · intro h
    obtain ⟨w, m, hw, h⟩ := h
    rw [uint_ok_iff] at hw
    split at h
    · rename_i h0
      obtain ⟨rfl, rfl⟩ := pure_ok_iff.mp h
      rw [h0] at hw
      exact hw
    · split at h
      · rename_i h1
        obtain ⟨rfl, rfl⟩ := pure_ok_iff.mp h
        rw [h1] at hw
        exact hw
      · exact absurd h failAt_ne_ok
  · intro h
    refine ⟨if b then 1 else 0, c', uint_ok_iff.mpr h, ?_⟩
    cases b with
    | false => exact pure_ok_iff.mpr ⟨rfl, rfl⟩
    | true => exact pure_ok_iff.mpr ⟨rfl, rfl⟩

theorem length_ok_iff {max : Option UInt32} {n : UInt32} :
    length max ctx c = .ok n c' ↔
      (Extent.variable max).Admits n.toNat ∧ c.Reads (Bytes.word n) c' := by
  rw [length, offset_bind_apply, bind_ok_iff, Extent.admits_variable]
  constructor
  · intro h
    obtain ⟨w, m, hw, h⟩ := h
    rw [uint_ok_iff] at hw
    cases max with
    | none =>
      obtain ⟨rfl, rfl⟩ := pure_ok_iff.mp h
      exact ⟨⟨n.toNat_lt, nofun⟩, hw⟩
    | some max =>
      dsimp only at h
      split at h
      · exact absurd h failAt_ne_ok
      · rename_i hle
        obtain ⟨rfl, rfl⟩ := pure_ok_iff.mp h
        refine ⟨⟨n.toNat_lt, fun m hm => ?_⟩, hw⟩
        cases hm
        exact Nat.le_of_not_lt hle
  · intro h
    obtain ⟨⟨-, hmax⟩, h⟩ := h
    refine ⟨n, c', uint_ok_iff.mpr h, ?_⟩
    cases max with
    | none => exact pure_ok_iff.mpr ⟨rfl, rfl⟩
    | some max =>
      have hle : ¬ max < n := Nat.not_lt.mpr (hmax max rfl)
      dsimp only
      rw [if_neg hle]
      exact pure_ok_iff.mpr ⟨rfl, rfl⟩

/-! ## Octets -/

theorem padding_ok_iff {n : Nat} :
    padding n ctx c = .ok () c' ↔ c.Reads (List.replicate (Bytes.padding n) 0) c' := by
  rw [padding, offset_bind_apply, bind_ok_iff]
  constructor
  · intro h
    obtain ⟨zeros, m, htake, h⟩ := h
    obtain ⟨hlen, hreads⟩ := take_ok_iff.mp htake
    split at h
    · exact absurd h failAt_ne_ok
    · rename_i hany
      obtain ⟨-, rfl⟩ := pure_ok_iff.mp h
      have hzero : ∀ b ∈ zeros, b = 0 := by simpa using hany
      rw [List.eq_replicate_iff.mpr ⟨hlen, hzero⟩] at hreads
      exact hreads
  · intro h
    refine ⟨_, c', take_ok_iff.mpr ⟨List.length_replicate, h⟩, ?_⟩
    rw [if_neg (by simp)]
    exact pure_ok_iff.mpr ⟨rfl, rfl⟩

theorem octets_ok_iff {n : Nat} {data : Bytes} :
    octets n ctx c = .ok data c' ↔ data.length = n ∧ c.Reads (Bytes.filled data) c' := by
  rw [octets, bind_ok_iff]
  constructor
  · intro h
    obtain ⟨d, m, htake, h⟩ := h
    obtain ⟨u, m', hpad, hpure⟩ := bind_ok_iff.mp h
    obtain ⟨rfl, rfl⟩ := pure_ok_iff.mp hpure
    obtain ⟨rfl, hdata⟩ := take_ok_iff.mp htake
    exact ⟨rfl, Cursor.reads_append.mpr ⟨m, hdata, padding_ok_iff.mp hpad⟩⟩
  · intro h
    obtain ⟨rfl, h⟩ := h
    obtain ⟨m, hdata, hpad⟩ := Cursor.reads_append.mp h
    exact ⟨data, m, take_ok_iff.mpr ⟨rfl, hdata⟩,
      bind_ok_iff.mpr ⟨(), c', padding_ok_iff.mpr hpad, pure_ok_iff.mpr ⟨rfl, rfl⟩⟩⟩

/-- To look for an item among the chunks finds nothing, or a chunk that has it, or one of the wrong
size. In the message it leaves the cursor where it is. -/
theorem placed?_cases (wrap : Bytes → Value) (ddp : Bool) (n : Nat) (ctx : ReadContext)
    (c : Cursor) :
    placed? wrap ddp n ctx c = .ok none c ∨
      (∃ chunk m, placed? wrap ddp n ctx c = .ok (some (chunkValue wrap chunk n)) m ∧
        m.rest = c.rest ∧ m.offset = c.offset) ∨
      ∃ what, placed? wrap ddp n ctx c =
        .error { fault := .violation what, path := ctx.path, offset := c.offset } c := by
  unfold placed?
  cases ctx.chunks with
  | none => exact .inl rfl
  | some chunks =>
    dsimp only
    split
    next chunk _ =>
      split
      · exact .inr (.inr ⟨_, rfl⟩)
      · exact .inr (.inl ⟨chunk, _, rfl, rfl, rfl⟩)
    next =>
      split
      · split
        next chunk _ =>
          split
          · exact .inr (.inr ⟨_, rfl⟩)
          · exact .inr (.inl ⟨chunk, _, rfl, rfl, rfl⟩)
        next => exact .inl rfl
      · exact .inl rfl

/-! ## Codes and room -/

/-- A code is judged when its word was there, and refused where the word starts. -/
theorem enum_of_int {table : Table} {fixed : Bool} {code : Int32} (h : int ctx c = .ok code c') :
    enum table fixed ctx c =
      match judge table fixed ctx.strict code with
      | .ok v => .ok v c'
      | .error fault => .error { fault, path := ctx.path, offset := c.offset } c' := by
  rw [enum, offset_bind_apply, bind_of_ok h]
  refine (bind_of_ok (a := ctx) (m := c') rfl).trans ?_
  cases judge table fixed ctx.strict code <;> rfl

theorem enum_of_int_error {table : Table} {fixed : Bool} {e : DecodeError}
    (h : int ctx c = .error e c') : enum table fixed ctx c = .error e c' := by
  rw [enum, offset_bind_apply, bind_of_error h]

theorem enum_ok_iff {table : Table} {fixed : Bool} {v : Value} :
    enum table fixed ctx c = .ok v c' ↔
      ∃ code, judge table fixed ctx.strict code = .ok v ∧
        c.Reads (Bytes.word code.toUInt32) c' := by
  rw [enum, offset_bind_apply, bind_ok_iff]
  constructor
  · intro h
    obtain ⟨code, m, hcode, h⟩ := h
    obtain ⟨ctx', m', hread, h⟩ := bind_ok_iff.mp h
    cases hread
    refine ⟨code, ?_⟩
    cases hj : judge table fixed ctx.strict code with
    | ok w =>
      rw [hj] at h
      obtain ⟨rfl, rfl⟩ := pure_ok_iff.mp h
      exact ⟨rfl, int_ok_iff.mp hcode⟩
    | error fault =>
      rw [hj] at h
      exact absurd h failAt_ne_ok
  · intro h
    obtain ⟨code, hj, h⟩ := h
    refine ⟨code, c', int_ok_iff.mpr h, bind_ok_iff.mpr ⟨ctx, c', rfl, ?_⟩⟩
    rw [hj]
    exact pure_ok_iff.mpr ⟨rfl, rfl⟩

/-- A code is accepted when it conforms, and in strict reading only if it is listed. -/
theorem judge_ok_iff {table : Table} {fixed strict : Bool} {code : Int32} {v : Value} :
    judge table fixed strict code = .ok v ↔
      v = .enum code (table.name? code) ∧ (fixed = true → table.Usable code) ∧
        (strict = true → (table.name? code).isSome) := by
  unfold judge Table.name? Table.Usable
  cases he : table.entry? code with
  | none => cases fixed <;> cases strict <;> simp [eq_comm]
  | some e =>
    cases fixed with
    | false => simp [eq_comm]
    | true =>
      by_cases hs : e.stability = .notToBeUsed
      · simp [hs]
      · simp [hs, Ne.symm hs, eq_comm]

theorem room_ok_iff {count minSize : Nat} :
    room count minSize ctx c = .ok () c' ↔
      need count minSize ≤ c.rest.length ∧ c' = c := by
  unfold room
  dsimp only
  split
  · rename_i hlt
    constructor
    · intro h; exact absurd h failAt_ne_ok
    · rintro ⟨hle, -⟩; omega
  · rename_i hle
    constructor
    · intro h; cases h; exact ⟨Nat.le_of_not_lt hle, rfl⟩
    · rintro ⟨-, rfl⟩; rfl

end Reader

end NfsWire
