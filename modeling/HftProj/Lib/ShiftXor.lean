import HftProj.Lib.BitPoly

/-!
# The shift-and-XOR product

A loop that shifts its first operand up and its second one down, and XORs the first into an
accumulator at every set bit of the second, multiplies polynomials over the two-element field
as long as no shifted operand leaves its word.
-/

namespace HftProj.Lib.ShiftXor

open Polynomial

/-- The loop, from an accumulator on, with as many rounds as the second operand has bits. -/
@[grind =]
def loop {v w : ℕ} : ℕ → (r a : BitVec v) → (b : BitVec w) → BitVec v
  | 0, r, _, _ => r
  | fuel + 1, r, a, b =>
      if b ≠ 0#w then loop fuel (if b &&& 1#w ≠ 0#w then r ^^^ a else r) (a <<< 1) (b >>> 1)
      else r

section Product

variable {v w : ℕ}

/-- A word below the top bit doubles inside. -/
theorem poly_double {a : BitVec v} {m : ℕ} (ha : a.toNat < 2 ^ m) (hm : m < v) :
    poly (a <<< 1) = X * poly a ∧ (a <<< 1).toNat < 2 ^ (m + 1) := by
  have hpow : 2 ^ (m + 1) ≤ 2 ^ v := Nat.pow_le_pow_right (by decide) hm
  have hout : a >>> (v - 1) = 0#v := by
    apply BitVec.eq_of_toNat_eq
    have hle : 2 ^ m ≤ 2 ^ (v - 1) := Nat.pow_le_pow_right (by decide) (by omega)
    rw [BitVec.toNat_ushiftRight, Nat.shiftRight_eq_div_pow, Nat.div_eq_of_lt (by omega)]
    rfl
  constructor
  · rw [poly_shift_inside a (by omega) hout, pow_one]
  · rw [BitVec.toNat_shiftLeft, Nat.shiftLeft_eq, Nat.mod_eq_of_lt (by omega)]
    omega

/-- The loop adds the product to the accumulator. -/
theorem poly_loop (fuel : ℕ) (r a : BitVec v) (b : BitVec w) {m n : ℕ} (ha : a.toNat < 2 ^ m)
    (hb : b.toNat < 2 ^ n) (hfuel : n ≤ fuel) (hfit : m + n ≤ v) :
    poly (loop fuel r a b) = poly r + poly a * poly b := by
  induction fuel generalizing r a b m n with
  | zero =>
      have hzero : b = 0#w := by
        apply BitVec.eq_of_toNat_eq
        rw [Nat.le_zero.mp hfuel] at hb
        simpa using hb
      rw [loop, hzero, poly_zero, mul_zero, add_zero]
  | succ fuel ih =>
      rw [loop]
      split
      · rename_i hne
        have hpos : 0 < n := by
          rcases Nat.eq_zero_or_pos n with rfl | hpos
          · exact absurd (BitVec.eq_of_toNat_eq (by simpa using hb)) hne
          · exact hpos
        have hshift : (b >>> 1).toNat < 2 ^ (n - 1) := by
          have hpow : 2 ^ (n - 1) * 2 = 2 ^ n := Nat.two_pow_pred_mul_two hpos
          rw [BitVec.toNat_ushiftRight, Nat.shiftRight_eq_div_pow]
          omega
        obtain ⟨hdouble, hsize⟩ := poly_double ha (by omega)
        rw [ih _ _ _ hsize hshift (by omega) (by omega), hdouble, poly_lowest b]
        split
        · rename_i hbit
          rw [poly_xor, if_pos ((lowest_bit b).mp hbit)]
          ring
        · rename_i hbit
          rw [if_neg fun h => hbit ((lowest_bit b).mpr h)]
          ring
      · rename_i hzero
        rw [not_not.mp hzero, poly_zero, mul_zero, add_zero]

end Product

end HftProj.Lib.ShiftXor
