import HftProj.Lib.MagicDivision
import HftProj.Lib.Word
import Mathlib.Data.Nat.Log
import Mathlib.Data.Nat.Prime.Basic

/-!
# The lane modulus

The fold grid's remainder by the lane count: a mask for a power of two, otherwise a precomputed
multiplication in place of the division. The multiplier is rounded with the floor of the binary
logarithm of the divisor.
-/

namespace HftProj.Testkit

open HftProj.Lib HftProj.Lib.MagicDivision

/-- The fields of `LaneMod`. -/
structure LaneMod where
  n : ℕ
  pow2 : Bool
  magic : ℕ
  magicSh : ℕ
  deriving DecidableEq

namespace LaneMod

/-- `is_power_of_two`. -/
def isPowerOfTwo (n : ℕ) : Bool := n = 2 ^ Nat.log2 n

/-- `leading_zeros` of a 64-bit word. -/
def leadingZeros (n : ℕ) : ℕ := if n = 0 then 64 else 63 - Nat.log2 n

/-- `LaneMod::new`. -/
def new (n : ℕ) : LaneMod :=
  if 1 < n ∧ isPowerOfTwo n then ⟨n, true, 0, 0⟩
  else if 1 < n then
    let l := 63 - leadingZeros n
    let nbits := 32 + l
    let magic := ((1 <<< nbits) % 2 ^ 128 / n + 1) % 2 ^ 128
    ⟨n, false, magic, nbits⟩
  else ⟨n, false, 0, 0⟩

/-- The quotient that `rem` takes: a 128-bit product, shifted and cut to 64 bits. -/
def quotient (m : LaneMod) (u : ℕ) : ℕ := ((u * m.magic % 2 ^ 128) >>> m.magicSh) % 2 ^ 64

/-- The product that `rem` subtracts. -/
def product (m : LaneMod) (u : ℕ) : ℕ := m.quotient u * m.n % 2 ^ 64

/-- `LaneMod::rem`. -/
def rem (m : LaneMod) (u : ℕ) : ℕ :=
  if m.n ≤ 1 then 0
  else if m.pow2 then u &&& (m.n - 1)
  else wrappingSub u (m.product u)

/-- The subtraction of `rem` goes below zero. -/
def Underflows (m : LaneMod) (u : ℕ) : Prop := 1 < m.n ∧ m.pow2 = false ∧ u < m.product u

instance (m : LaneMod) (u : ℕ) : Decidable (m.Underflows u) := inferInstanceAs (Decidable (_ ∧ _))

/-! ## The two paths -/

/-- The mask of a power of two keeps the remainder. -/
theorem and_mask {n : ℕ} (h : isPowerOfTwo n = true) (u : ℕ) : u &&& (n - 1) = u % n := by
  have hpow : n = 2 ^ Nat.log2 n := of_decide_eq_true h
  rw [hpow]
  exact Nat.and_two_pow_sub_one_eq_mod u _

/-- A divisor of a power of two is one. -/
theorem not_dvd_two_pow {n : ℕ} (h : isPowerOfTwo n = false) (k : ℕ) : ¬ n ∣ 2 ^ k := by
  intro hdvd
  obtain ⟨j, _, rfl⟩ := (Nat.dvd_prime_pow Nat.prime_two).mp hdvd
  have hself : isPowerOfTwo (2 ^ j) = true := decide_eq_true (by rw [Nat.log2_two_pow])
  rw [hself] at h
  cases h

section Magic

variable {n : ℕ}

/-- The shift of the multiplier: 32 and the floor of the binary logarithm. -/
def shift (n : ℕ) : ℕ := 32 + Nat.log2 n

theorem log2_lt (hn : 1 < n) (hn' : n < 2 ^ 32) : Nat.log2 n < 32 :=
  (Nat.log2_lt (Nat.ne_of_gt (Nat.lt_of_succ_lt hn))).mpr hn'

/-- The multiplier path keeps the multiplier and the shift, no word overflows. -/
theorem new_magic (hn : 1 < n) (hn' : n < 2 ^ 32) (hpow : isPowerOfTwo n = false) :
    LaneMod.new n = ⟨n, false, MagicDivision.magic n (2 ^ shift n), shift n⟩ := by
  have hlog := log2_lt hn hn'
  have hzeros : 63 - leadingZeros n = Nat.log2 n := by
    rw [leadingZeros, if_neg (by omega)]
    omega
  have hshift : 2 ^ shift n < 2 ^ 128 := Nat.pow_lt_pow_right (by decide) (by rw [shift]; omega)
  have hmagic : MagicDivision.magic n (2 ^ shift n) < 2 ^ 128 := by
    have hhalf : 2 ^ shift n / n < 2 ^ shift n := Nat.div_lt_self (Nat.two_pow_pos _) hn
    exact Nat.lt_of_le_of_lt hhalf hshift
  rw [LaneMod.new, if_neg (by simp [hpow]), if_pos hn]
  simp only [hzeros, Nat.one_shiftLeft]
  change LaneMod.mk n false ((2 ^ shift n % 2 ^ 128 / n + 1) % 2 ^ 128) (shift n) = _
  rw [Nat.mod_eq_of_lt hshift]
  exact congrArg (LaneMod.mk n false · (shift n)) (Nat.mod_eq_of_lt hmagic)

/-- The dividends below `2 ^ 32` keep the excess below two shifts. -/
theorem excess_bound {u : ℕ} (hn : 1 < n) (hpow : isPowerOfTwo n = false) (hu : u < 2 ^ 32) :
    u * excess n (2 ^ shift n) < 2 * 2 ^ shift n := by
  have hless : excess n (2 ^ shift n) < 2 * 2 ^ Nat.log2 n := by
    calc excess n (2 ^ shift n) < n := excess_lt (not_dvd_two_pow hpow _) (Nat.lt_of_succ_lt hn)
      _ < 2 ^ (Nat.log2 n + 1) := Nat.lt_log2_self
      _ = 2 * 2 ^ Nat.log2 n := Nat.pow_succ'
  calc u * excess n (2 ^ shift n) ≤ 2 ^ 32 * excess n (2 ^ shift n) :=
        Nat.mul_le_mul_right _ (Nat.le_of_lt hu)
    _ < 2 ^ 32 * (2 * 2 ^ Nat.log2 n) := Nat.mul_lt_mul_of_pos_left hless (Nat.two_pow_pos 32)
    _ = 2 * 2 ^ shift n := by rw [shift, Nat.pow_add]; ring

/-- The quotient is the true one, or the next one at the end of a residue class. -/
theorem new_quotient {u : ℕ} (hn : 1 < n) (hn' : n < 2 ^ 32) (hpow : isPowerOfTwo n = false)
    (hu : u < 2 ^ 32) :
    (LaneMod.new n).quotient u =
      if u % n = n - 1 ∧ 2 ^ shift n ≤ u * excess n (2 ^ shift n) then u / n + 1 else u / n := by
  have hlog := log2_lt hn hn'
  have hshift : 2 ^ shift n ≤ 2 ^ 63 := Nat.pow_le_pow_right (by decide) (by rw [shift]; omega)
  have hmagic : MagicDivision.magic n (2 ^ shift n) ≤ 2 ^ 63 :=
    (Nat.div_lt_self (Nat.two_pow_pos _) hn).trans_le hshift
  have hproduct : u * MagicDivision.magic n (2 ^ shift n) < 2 ^ 128 := by
    calc u * MagicDivision.magic n (2 ^ shift n) ≤ 2 ^ 32 * 2 ^ 63 := Nat.mul_le_mul (Nat.le_of_lt hu) hmagic
      _ < 2 ^ 128 := by decide
  have hdiv := magic_quotient hn (Nat.two_pow_pos (shift n)) (excess_bound hn hpow hu)
  have hle : u * MagicDivision.magic n (2 ^ shift n) / 2 ^ shift n < 2 ^ 64 := by
    have hself := Nat.div_le_self u n
    rw [hdiv]
    split <;> omega
  rw [new_magic hn hn' hpow]
  change (u * MagicDivision.magic n (2 ^ shift n) % 2 ^ 128) >>> shift n % 2 ^ 64 = _
  rw [Nat.mod_eq_of_lt hproduct, Nat.shiftRight_eq_div_pow, Nat.mod_eq_of_lt hle, hdiv]

/-- What the multiplier path computes. -/
theorem new_rem {u : ℕ} (hn : 1 < n) (hn' : n < 2 ^ 32) (hpow : isPowerOfTwo n = false)
    (hu : u < 2 ^ 32) :
    (LaneMod.new n).product u = (LaneMod.new n).quotient u * n ∧
      (LaneMod.new n).rem u = wrappingSub u ((LaneMod.new n).product u) := by
  have hquot := new_quotient hn hn' hpow hu
  have hself := Nat.div_mul_le_self u n
  have hsmall : (LaneMod.new n).quotient u * n < 2 ^ 64 := by
    have hle : (LaneMod.new n).quotient u * n ≤ u / n * n + n := by
      rw [hquot, ← Nat.succ_mul]
      apply Nat.mul_le_mul_right
      split <;> omega
    omega
  have hfields := new_magic hn hn' hpow
  have hmodulus : (LaneMod.new n).n = n := congrArg LaneMod.n hfields
  have hpow2 : (LaneMod.new n).pow2 = false := congrArg LaneMod.pow2 hfields
  constructor
  · rw [LaneMod.product, hmodulus, Nat.mod_eq_of_lt hsmall]
  · rw [LaneMod.rem, hmodulus, hpow2, if_neg (Nat.not_le.mpr hn)]
    rfl

end Magic

/-! ## The exact domain -/

/-- The remainder is exact and its subtraction stays above zero exactly for a power of two,
outside the last residue, and for a dividend whose product with the excess stays below the
multiplier's shift. -/
theorem rem_exact_iff (n u : ℕ) (hn : 1 ≤ n) (hn' : n < 2 ^ 32) (hu : u < 2 ^ 32) :
    ((LaneMod.new n).rem u = u % n ∧ ¬ (LaneMod.new n).Underflows u) ↔
      isPowerOfTwo n = true ∨ u % n ≠ n - 1 ∨
        u * (n - 2 ^ (32 + Nat.log2 n) % n) < 2 ^ (32 + Nat.log2 n) := by
  obtain rfl | hn := Nat.eq_or_lt_of_le hn
  · have hone : isPowerOfTwo 1 = true := rfl
    exact iff_of_true ⟨(Nat.mod_one u).symm, fun h => absurd h.1 (Nat.lt_irrefl 1)⟩ (Or.inl hone)
  · cases hpow : isPowerOfTwo n with
    | true =>
        have hfields : LaneMod.new n = ⟨n, true, 0, 0⟩ := if_pos ⟨hn, hpow⟩
        refine iff_of_true ⟨?_, ?_⟩ (Or.inl rfl)
        · rw [hfields, LaneMod.rem, if_neg (Nat.not_le.mpr hn), if_pos rfl, and_mask hpow]
        · rw [hfields]
          intro h
          cases h.2.1
    | false =>
        obtain ⟨hproduct, hrem⟩ := new_rem hn hn' hpow hu
        have hmodulus : (LaneMod.new n).n = n := congrArg LaneMod.n (new_magic hn hn' hpow)
        have hpow2 : (LaneMod.new n).pow2 = false := congrArg LaneMod.pow2 (new_magic hn hn' hpow)
        have hquot := new_quotient hn hn' hpow hu
        have hdm := Nat.div_add_mod' u n
        have hmod := Nat.mod_lt u (Nat.lt_of_succ_lt hn)
        by_cases hlast : u % n = n - 1 ∧ 2 ^ shift n ≤ u * excess n (2 ^ shift n)
        · rw [if_pos hlast] at hquot
          have hbelow : u < (LaneMod.new n).product u := by
            rw [hproduct, hquot, Nat.succ_mul]
            omega
          apply iff_of_false
          · intro h
            exact h.2 ⟨hmodulus.symm ▸ hn, hpow2, hbelow⟩
          · rintro (h | h | h)
            · cases h
            · exact h hlast.1
            · exact absurd h (Nat.not_lt.mpr hlast.2)
        · rw [if_neg hlast] at hquot
          have hle : (LaneMod.new n).product u ≤ u := by
            rw [hproduct, hquot]
            exact Nat.div_mul_le_self u n
          apply iff_of_true
          · refine ⟨?_, fun h => absurd h.2.2 (Nat.not_lt.mpr hle)⟩
            rw [hrem, wrappingSub_of_le hle (hu.trans (by decide)), hproduct, hquot]
            omega
          · right
            by_cases hres : u % n = n - 1
            · exact Or.inr (Nat.lt_of_not_le fun h => hlast ⟨hres, h⟩)
            · exact Or.inl hres

/-- Seven lanes at the end of their domain. -/
theorem rem_exact_iff_seven :
    (LaneMod.new 7).rem (2 ^ 32 - 1) = (2 ^ 32 - 1) % 7 ∧
      ¬ (LaneMod.new 7).Underflows (2 ^ 32 - 1) :=
  (rem_exact_iff 7 (2 ^ 32 - 1) (by decide) (by decide) (by decide)).mpr
    (Or.inr (Or.inl (by decide)))

/-- Seven lanes, a dividend in the last residue: the quotient is one too large, and the
difference wraps around. -/
theorem rem_seven_wraps :
    (LaneMod.new 7).rem 3435973841 = 2 ^ 64 - 1 ∧
      (LaneMod.new 7).rem 3435973841 ≠ 3435973841 % 7 ∧
      (LaneMod.new 7).Underflows 3435973841 := by
  have hnew : LaneMod.new 7 = ⟨7, false, 2454267027, 34⟩ := by decide
  have hproduct : (LaneMod.mk 7 false 2454267027 34).product 3435973841 = 3435973842 := by decide
  have hrem : (LaneMod.new 7).rem 3435973841 = 2 ^ 64 - 1 := by
    rw [hnew]
    change wrappingSub 3435973841 ((LaneMod.mk 7 false 2454267027 34).product 3435973841) = _
    rw [hproduct, wrappingSub]
    decide
  refine ⟨hrem, ?_, ?_⟩
  · rw [hrem]
    decide
  · rw [hnew]
    exact ⟨by decide, rfl, hproduct ▸ by decide⟩

end LaneMod

end HftProj.Testkit
