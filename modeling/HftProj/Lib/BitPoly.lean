import Mathlib.Algebra.Polynomial.Div
import Mathlib.Algebra.Field.ZMod
import Mathlib.Data.BitVec
import Mathlib.RingTheory.AdjoinRoot
import Mathlib.Tactic.LinearCombination

/-!
# Machine words as polynomials over the two-element field

Bit `i` of a word is the coefficient of `X ^ i`. XOR is addition, and a left shift multiplies by
a power of `X` up to the bits that leave the word. Modulo a monic polynomial whose degree is the
word's width, every word is its own remainder, so words that agree in the quotient are equal.
-/

namespace HftProj.Lib

open Polynomial

/-- The polynomial whose coefficients are the bits of a word. -/
noncomputable def poly {w : ℕ} (a : BitVec w) : (ZMod 2)[X] :=
  ∑ i ∈ Finset.range w, if a.getLsbD i then X ^ i else 0

section Words

variable {w : ℕ} (a b : BitVec w)

theorem poly_eq_sum : poly a = ∑ i ∈ Finset.range w, if a.getLsbD i then X ^ i else 0 := rfl

attribute [irreducible] poly

theorem poly_coeff (n : ℕ) : (poly a).coeff n = if a.getLsbD n then 1 else 0 := by
  have hterm (i : ℕ) : (if a.getLsbD i then (X : (ZMod 2)[X]) ^ i else 0).coeff n =
      if n = i then (if a.getLsbD i then 1 else 0) else 0 := by
    split
    · exact coeff_X_pow i n
    · simp
  rw [poly_eq_sum, finsetSum_coeff, Finset.sum_congr rfl fun i _ => hterm i, Finset.sum_ite_eq]
  split
  · rfl
  · rename_i hout
    rw [BitVec.getLsbD_of_ge a n (by simpa using hout)]
    rfl

theorem poly_injective : Function.Injective (poly : BitVec w → (ZMod 2)[X]) := by
  intro a b heq
  apply BitVec.eq_of_getLsbD_eq
  intro i hi
  have hcoeff := congrArg (coeff · i) heq
  simp only [poly_coeff] at hcoeff
  cases ha : a.getLsbD i <;> cases hb : b.getLsbD i <;> simp [ha, hb] at hcoeff ⊢

theorem poly_degree_lt : (poly a).degree < w := by
  rw [degree_lt_iff_coeff_zero]
  intro n hn
  rw [poly_coeff, BitVec.getLsbD_of_ge a n hn]
  rfl

@[simp]
theorem poly_zero : poly (0#w) = 0 := by
  ext n
  simp [poly_coeff]

@[simp]
theorem poly_xor : poly (a ^^^ b) = poly a + poly b := by
  ext n
  rw [coeff_add, poly_coeff, poly_coeff, poly_coeff, BitVec.getLsbD_xor]
  cases a.getLsbD n <;> cases b.getLsbD n <;> decide

theorem poly_one (h : 0 < w) : poly (1#w) = 1 := by
  ext n
  rw [poly_coeff, coeff_one, BitVec.getLsbD_one]
  simp [h]

/-- The bit at `k`. -/
theorem poly_twoPow {k : ℕ} (h : k < w) : poly (1#w <<< k) = X ^ k := by
  ext n
  rw [poly_coeff, coeff_X_pow]
  congr 1
  simp only [BitVec.getLsbD_shiftLeft, BitVec.getLsbD_one, eq_iff_iff]
  simp
  omega

/-- A left shift multiplies, up to the bits that leave the word. -/
theorem poly_shift {i : ℕ} (hi : i ≤ w) :
    X ^ i * poly a = poly (a <<< i) + X ^ w * poly (a >>> (w - i)) := by
  ext n
  rw [coeff_add, coeff_X_pow_mul', coeff_X_pow_mul', poly_coeff, poly_coeff, poly_coeff,
    BitVec.getLsbD_shiftLeft, BitVec.getLsbD_ushiftRight]
  rcases Nat.lt_or_ge n w with hn | hn
  · have hlow : ¬ w ≤ n := Nat.not_le.mpr hn
    by_cases hin : i ≤ n
    · simp [hn, hlow, hin, Nat.not_lt.mpr hin]
    · simp [hlow, hin, Nat.lt_of_not_le hin]
  · have hindex : w - i + (n - w) = n - i := by omega
    simp [hn, Nat.not_lt.mpr hn, hi.trans hn, hindex]

theorem poly_shift_inside {i : ℕ} (hi : i ≤ w) (h : a >>> (w - i) = 0#w) :
    poly (a <<< i) = X ^ i * poly a := by
  rw [poly_shift a hi, h, poly_zero, mul_zero, add_zero]

theorem poly_natDegree_le : (poly a).natDegree ≤ w - 1 := by
  rw [natDegree_le_iff_coeff_eq_zero]
  intro n hn
  rw [poly_coeff, BitVec.getLsbD_of_ge a n (by omega)]
  rfl

theorem poly_setWidth {v : ℕ} (h : w ≤ v) : poly (a.setWidth v) = poly a := by
  ext n
  rw [poly_coeff, poly_coeff, BitVec.getLsbD_setWidth]
  rcases Nat.lt_or_ge n w with hn | hn
  · simp [hn.trans_le h]
  · simp [BitVec.getLsbD_of_ge a n hn]

/-- The low bits and the bits from `k` on. -/
theorem poly_split (k : ℕ) : poly a = poly (a.setWidth k) + X ^ k * poly (a >>> k) := by
  ext n
  rw [coeff_add, coeff_X_pow_mul', poly_coeff, poly_coeff, BitVec.getLsbD_setWidth]
  rcases Nat.lt_or_ge n k with hn | hn
  · simp [hn, Nat.not_le.mpr hn]
  · rw [if_pos hn, poly_coeff, BitVec.getLsbD_ushiftRight, Nat.add_sub_of_le hn]
    simp [Nat.not_lt.mpr hn]

/-- A word cut to a width that holds it. -/
theorem poly_narrow {k : ℕ} (h : a.toNat < 2 ^ k) : poly (a.setWidth k) = poly a := by
  have hout : a >>> k = 0#w := by
    apply BitVec.eq_of_toNat_eq
    rw [BitVec.toNat_ushiftRight, Nat.shiftRight_eq_div_pow, Nat.div_eq_of_lt h]
    rfl
  rw [poly_split a k, hout, poly_zero, mul_zero, add_zero]

/-- The words of at most `k + 1` bits are those whose polynomials have degree at most `k`. -/
theorem toNat_lt_iff_natDegree {k : ℕ} : a.toNat < 2 ^ (k + 1) ↔ (poly a).natDegree ≤ k := by
  constructor
  · intro h
    rw [← poly_narrow a h]
    exact poly_natDegree_le _
  · intro h
    apply Nat.lt_pow_two_of_testBit
    intro i hi
    have hcoeff := coeff_eq_zero_of_natDegree_lt (h.trans_lt hi)
    rw [poly_coeff] at hcoeff
    by_contra hbit
    rw [BitVec.testBit_toNat, Bool.not_eq_false] at hbit
    rw [if_pos hbit] at hcoeff
    exact one_ne_zero hcoeff

theorem lowest_bit : b &&& 1#w ≠ 0#w ↔ b.getLsbD 0 = true := by
  constructor
  · intro hne
    by_contra hbit
    apply hne
    apply BitVec.eq_of_getLsbD_eq
    intro i _
    rcases Nat.eq_zero_or_pos i with rfl | hpos
    · rw [BitVec.getLsbD_and, Bool.eq_false_iff.mpr hbit, Bool.false_and, BitVec.getLsbD_zero]
    · simp [BitVec.getLsbD_one, Nat.ne_of_gt hpos]
  · intro hbit heq
    have hzero : (b &&& 1#w).getLsbD 0 = (0#w).getLsbD 0 := by rw [heq]
    rw [BitVec.getLsbD_and, hbit, BitVec.getLsbD_one, BitVec.getLsbD_zero] at hzero
    simp [BitVec.lt_of_getLsbD hbit] at hzero

/-- The lowest bit and the rest. -/
theorem poly_lowest :
    poly a = (if a.getLsbD 0 then (1 : (ZMod 2)[X]) else 0) + X * poly (a >>> 1) := by
  ext n
  rw [coeff_add, poly_coeff]
  cases n with
  | zero =>
      rw [coeff_X_mul_zero, add_zero]
      cases a.getLsbD 0 <;> simp
  | succ n =>
      rw [coeff_X_mul, poly_coeff, BitVec.getLsbD_ushiftRight, Nat.add_comm 1 n]
      cases a.getLsbD 0 <;> simp [coeff_one]

end Words

/-! ## Remainders -/

section Remainder

variable {w : ℕ} {Q : (ZMod 2)[X]} {a b : BitVec w} {p : (ZMod 2)[X]}

/-- A word is a remainder as soon as it differs from the polynomial by a multiple. -/
theorem poly_eq_modByMonic (hQ : Q.Monic) (hdeg : Q.degree = w) (h : Q ∣ p - poly a) :
    poly a = p %ₘ Q := by
  obtain ⟨q, hq⟩ := h
  have hdiv : poly a + Q * q = p := by
    rw [← hq]
    ring
  exact (div_modByMonic_unique q (poly a) hQ ⟨hdiv, hdeg ▸ poly_degree_lt a⟩).2.symm

variable (Q) in
/-- The class of a word modulo a polynomial. -/
noncomputable def residue (a : BitVec w) : AdjoinRoot Q := AdjoinRoot.mk Q (poly a)

theorem residue_eq_iff : residue Q a = AdjoinRoot.mk Q p ↔ Q ∣ p - poly a := by
  rw [residue, AdjoinRoot.mk_eq_mk, ← dvd_neg, neg_sub]

theorem residue_injective (hQ : Q.Monic) (hdeg : Q.degree = w) :
    Function.Injective (residue Q : BitVec w → AdjoinRoot Q) := by
  intro a b heq
  apply poly_injective
  calc
    poly a = poly b %ₘ Q := poly_eq_modByMonic hQ hdeg (residue_eq_iff.mp heq)
    _ = poly b := (modByMonic_eq_self_iff hQ).mpr (hdeg ▸ poly_degree_lt b)

@[simp]
theorem residue_zero : residue Q (0#w) = 0 := by
  rw [residue, poly_zero, map_zero]

@[simp]
theorem residue_xor : residue Q (a ^^^ b) = residue Q a + residue Q b := by
  rw [residue, poly_xor, map_add]
  rfl

theorem residue_one (h : 0 < w) : residue Q (1#w) = 1 := by
  rw [residue, poly_one h, map_one]

end Remainder

end HftProj.Lib
