/-!
# Bytes on the wire

Everything the library reads or writes is a list of octets, and every number in it is
written most significant octet first. This module holds the three facts about octets the
rest relies on: how a number of a given width is written and read back, how much padding
brings data up to the next multiple of four, and how octets are shown as text.

Main statements: `Bytes.toNat_ofNat` (a number read back is the number written, modulo the
width), `Bytes.ofNat_toNat` (octets written back are the octets read), and
`Bytes.padded_eq` (data and padding fill whole words).
-/

namespace NfsWire

/-- A run of octets. -/
abbrev Bytes := List UInt8

namespace Bytes

/-! ## Numbers -/

/-- The number whose octets, most significant first, are `bs`. -/
def toNat (bs : Bytes) : Nat :=
  bs.foldl (fun n b => n * 256 + b.toNat) 0

/-- The low `width` octets of `n`, most significant first. -/
def ofNat : (width n : Nat) → Bytes
  | 0, _ => []
  | width + 1, n => ofNat width (n / 256) ++ [UInt8.ofNat n]

@[simp] theorem length_ofNat (width n : Nat) : (ofNat width n).length = width := by
  induction width generalizing n with
  | zero => rfl
  | succ w ih => simp [ofNat, ih]

@[simp] theorem toNat_append_singleton (bs : Bytes) (b : UInt8) :
    toNat (bs ++ [b]) = toNat bs * 256 + b.toNat := by
  simp [toNat, List.foldl_append]

/-- A number read back is the number written, as far as the width holds it. -/
theorem toNat_ofNat (width n : Nat) : toNat (ofNat width n) = n % Nat.pow 256 width := by
  induction width generalizing n with
  | zero => exact (Nat.mod_one n).symm
  | succ w ih =>
    have h : (UInt8.ofNat n).toNat = n % 256 := rfl
    have hpow : Nat.pow 256 (w + 1) = 256 * Nat.pow 256 w := Nat.mul_comm ..
    rw [ofNat, toNat_append_singleton, ih, h, hpow, Nat.mod_mul, Nat.mul_comm 256, Nat.add_comm]

/-- Octets written back are the octets read. -/
theorem ofNat_toNat (bs : Bytes) : ofNat bs.length (toNat bs) = bs := by
  obtain ⟨n, hn⟩ : ∃ n, bs.length = n := ⟨_, rfl⟩
  induction n generalizing bs with
  | zero => simp [List.length_eq_zero_iff.mp hn, ofNat]
  | succ n ih =>
    have hne : bs ≠ [] := by intro h; simp [h] at hn
    obtain ⟨init, last, rfl⟩ : ∃ init last, bs = init ++ [last] :=
      ⟨bs.dropLast, bs.getLast hne, (List.dropLast_concat_getLast hne).symm⟩
    have hi : init.length = n := by simpa using hn
    have hb : last.toNat < 256 := last.toNat_lt
    have hq : (toNat init * 256 + last.toNat) / 256 = toNat init := by omega
    have hr : UInt8.ofNat (toNat init * 256 + last.toNat) = last := by
      apply UInt8.toNat_inj.mp
      show (toNat init * 256 + last.toNat) % 256 = last.toNat
      omega
    have := ih init hi
    rw [hi] at this
    simp [ofNat, hi, hq, hr, this]

theorem toNat_lt (bs : Bytes) : toNat bs < Nat.pow 256 bs.length := by
  have h := toNat_ofNat bs.length (toNat bs)
  rw [ofNat_toNat] at h
  rw [h]
  exact Nat.mod_lt _ (Nat.pow_pos (by decide))

/-! ## Padding -/

/-- How many zero octets follow `n` octets of data. -/
def padding (n : Nat) : Nat := (4 - n % 4) % 4

/-- The room `n` octets of data take with their padding. -/
def padded (n : Nat) : Nat := n + padding n

/-- Data and padding fill whole words, and no more of them than needed. -/
theorem padded_eq (n : Nat) : padded n = (n + 3) / 4 * 4 := by
  unfold padded padding
  omega

/-! ## Text -/

/-- One hexadecimal digit, lower case. -/
def hexDigit (n : Nat) : Char :=
  if n < 10 then Char.ofNat (48 + n) else Char.ofNat (87 + n)

/-- Two lower-case hexadecimal digits per octet, nothing between them. -/
def toHex (bs : Bytes) : String :=
  String.ofList (bs.flatMap fun b => [hexDigit (b.toNat / 16), hexDigit (b.toNat % 16)])

/-- The octets as text, when they are well-formed UTF-8. -/
def toText? (bs : Bytes) : Option String :=
  String.fromUTF8? ⟨bs.toArray⟩

end Bytes

/-- Eight lower-case hexadecimal digits, the way transaction ids are shown. -/
def hexWord (w : UInt32) : String :=
  Bytes.toHex (Bytes.ofNat 4 w.toNat)

end NfsWire
