/-!
# Decimals

A decimal is a whole number times a power of ten. `Decimal.toFloat` gives the binary64 number
nearest to it, and of two that are equally near the one whose last bit is 0. All work is done
on whole numbers, so the rounding is exact: a quotient is rounded once, on the grid of the
result.
-/

namespace NfsWire

/-- The whole number nearest to `n / d`, an even one for a half. -/
def roundQuotient (n d : Nat) : Nat :=
  let q := n / d
  let r := n % d
  if 2 * r < d || (2 * r == d && q % 2 == 0) then q else q + 1

/-- A rounded quotient is at most half a unit away. -/
theorem roundQuotient_near (n : Nat) {d : Nat} (hd : 0 < d) :
    2 * (roundQuotient n d * d) ≤ 2 * n + d ∧ 2 * n ≤ 2 * (roundQuotient n d * d) + d := by
  have hdiv : n / d * d + n % d = n := by
    rw [Nat.mul_comm]
    exact Nat.div_add_mod n d
  have hmod := Nat.mod_lt n hd
  simp only [roundQuotient]
  split
  · rename_i h
    simp only [Bool.or_eq_true, Bool.and_eq_true, decide_eq_true_eq, beq_iff_eq] at h
    omega
  · rename_i h
    simp only [Bool.or_eq_true, Bool.and_eq_true, decide_eq_true_eq, beq_iff_eq, not_or] at h
    have hmul : (n / d + 1) * d = n / d * d + d := by rw [Nat.add_mul, Nat.one_mul]
    rw [hmul]
    omega

namespace Binary64

/-- The bits of infinity, which stand above those of every number. -/
def infinity : Nat := 0x7FF <<< 52

/-- The power of two of the last place of a binary64 number near `n / d`: 52 below the power
of its first place, and never below the power of the smallest number. -/
def lastPlace (n d : Nat) : Int :=
  let guess : Int := (n.log2 : Int) - d.log2
  let below := n <<< (-guess).toNat < d <<< guess.toNat
  max ((if below then guess - 1 else guess) - 52) (-1074)

/-- The bits of the number nearest to `n / d`, where neither is 0.

The bits of positive numbers are in the order of the numbers, one step per place; the first
place of a normal number, which the bits do not hold, carries into the exponent. -/
def ofQuotient (n d : Nat) : Nat :=
  let place := lastPlace n d
  let mantissa := roundQuotient (n <<< (-place).toNat) (d <<< place.toNat)
  min ((place + 1074).toNat <<< 52 + mantissa) infinity

end Binary64

/-- The number `digits * 10 ^ exponent`. -/
structure Decimal where
  digits : Nat
  exponent : Int
  deriving DecidableEq, Repr, Inhabited

namespace Decimal

/-- The bits of the binary64 number nearest to a decimal. Above `10 ^ 400` that is infinity,
and below `10 ^ -400` it is 0, so that no greater powers are worked out. -/
def toBits (d : Decimal) : Nat :=
  if d.digits = 0 || d.exponent < -(400 + d.digits.log2 : Int) then 0
  else if 400 < d.exponent then Binary64.infinity
  else Binary64.ofQuotient (d.digits * Nat.pow 10 d.exponent.toNat)
    (Nat.pow 10 (-d.exponent).toNat)

def toFloat (d : Decimal) : Float := .ofBits (.ofNat d.toBits)

end Decimal

end NfsWire
