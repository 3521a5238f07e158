import HftProj.Lib.ShiftXor
import HftProj.Testkit.SpanField
import Mathlib.Data.Fin.VecNotation

/-!
# The span hash combine

Four lane words and a length are multiplied by fixed keys, the products are XORed and the sum is
reduced by two folds of its high word. The portable kernel, the one over 128-bit registers and the
one over 256-bit registers group the products differently.
-/

namespace HftProj.Testkit.SpanHash

open HftProj.Lib
open Polynomial
open SpanField

/-! ## The portable kernel -/

/-- `SPANHASH_MOD_P_LOW`: the modulus without its leading term. -/
def spanhashModPLow : BitVec 64 := 0x1B#64

/-- `SPANHASH_KEYS`. -/
def spanhashKeys : Fin 5 → BitVec 64 :=
  ![0x9E3779B97F4A7C15#64, 0xC9496682D48DB090#64, 0x0C29FAC027C1BE19#64, 0x27CAF68B98DA812D#64,
    0xECC6D2FF80E61FD6#64]

/-- `clmul64_portable`. -/
def clmul64Portable (a b : BitVec 64) : BitVec 128 := ShiftXor.loop 64 0#128 (a.setWidth 128) b

/-- One round of the reduction; a word without a high half breaks the loop as it is. -/
def foldRound (x : BitVec 128) : BitVec 128 :=
  if x >>> 64 = 0#128 then x
  else clmul64Portable (high64 x) spanhashModPLow ^^^ (low64 x).setWidth 128

/-- `reduce_mod_p_portable`. -/
def reduceModPPortable (x : BitVec 128) : BitVec 64 := low64 (foldRound (foldRound x))

/-- `spanhash64_portable`. -/
def spanhash64Portable (words : Fin 4 → BitVec 64) (len : BitVec 32) : BitVec 64 :=
  let terms : Fin 5 → BitVec 64 := ![words 0, words 1, words 2, words 3, len.setWidth 64]
  reduceModPPortable ((List.finRange 5).foldl
    (fun acc i => acc ^^^ clmul64Portable (terms i) (spanhashKeys i)) 0#128)

/-! ## The register kernels -/

/-- A register of two words, the low one first. -/
def loadu (lo hi : BitVec 64) : BitVec 128 := hi ++ lo

/-- `_mm_clmulepi64_si128`: the immediate selects a word of each operand. -/
def mmClmulepi64 (a b : BitVec 128) (imm : BitVec 8) : BitVec 128 :=
  clmulepi64 (if imm.getLsbD 0 then high64 a else low64 a)
    (if imm.getLsbD 4 then high64 b else low64 b)

/-- `_mm_unpackhi_epi64`. -/
def unpackhi (a b : BitVec 128) : BitVec 128 := loadu (high64 a) (high64 b)

/-- `_mm_move_epi64`. -/
def moveEpi64 (a : BitVec 128) : BitVec 128 := loadu (low64 a) 0#64

/-- `_mm_ternarylogic_epi64`: the immediate is the table of three bits, the first the high one. -/
def ternarylogic (a b c : BitVec 128) (imm : BitVec 8) : BitVec 128 :=
  let literal (x : BitVec 128) (positive : Bool) := if positive then x else ~~~x
  (List.range 8).foldl (fun r row =>
    if imm.getLsbD row then
      r ||| literal a (row.testBit 2) &&& literal b (row.testBit 1) &&& literal c (row.testBit 0)
    else r) 0#128

/-- The folding reduction, the second round by shifts. -/
def foldReduce (s : BitVec 128) : BitVec 64 :=
  let hi := unpackhi s s
  let plow := spanhashModPLow.setWidth 128
  let t1 := mmClmulepi64 hi plow 0x00#8
  let x1 := t1 ^^^ moveEpi64 s
  let hi2 := low64 (unpackhi x1 x1) &&& 0xF#64
  let lo := low64 x1
  lo ^^^ (hi2 <<< 4 ^^^ hi2 <<< 3 ^^^ hi2 <<< 1 ^^^ hi2)

/-- `spanhash64_pclmul`. -/
def spanhash64Pclmul (words : Fin 4 → BitVec 64) (len : BitVec 32) : BitVec 64 :=
  let a := loadu (words 0) (words 1)
  let b := loadu (words 2) (words 3)
  let k01 := loadu (spanhashKeys 0) (spanhashKeys 1)
  let k23 := loadu (spanhashKeys 2) (spanhashKeys 3)
  let p01 := mmClmulepi64 a k01 0x00#8
  let p23 := mmClmulepi64 a k01 0x11#8
  let p45 := mmClmulepi64 b k23 0x00#8
  let p67 := mmClmulepi64 b k23 0x11#8
  let l := len.setWidth 128
  let k4 := (spanhashKeys 4).setWidth 128
  let pl := mmClmulepi64 l k4 0x00#8
  foldReduce ((p01 ^^^ p23) ^^^ ((p45 ^^^ p67) ^^^ pl))

/-- `spanhash64_vec256`. A 256-bit register is its two lanes. -/
def spanhash64Vec256 (words : Fin 4 → BitVec 64) (len : BitVec 32) : BitVec 64 :=
  let a := ![loadu (words 0) (words 1), loadu (words 2) (words 3)]
  let k := ![loadu (spanhashKeys 0) (spanhashKeys 1), loadu (spanhashKeys 2) (spanhashKeys 3)]
  let pl (lane : Fin 2) := mmClmulepi64 (a lane) (k lane) 0x00#8
  let ph (lane : Fin 2) := mmClmulepi64 (a lane) (k lane) 0x11#8
  let s (lane : Fin 2) := pl lane ^^^ ph lane
  let l := len.setWidth 128
  let k4 := (spanhashKeys 4).setWidth 128
  let plen := mmClmulepi64 l k4 0x00#8
  foldReduce (ternarylogic (s 0) (s 1) plen 0x96#8)

/-! ## The reduction -/

section Reduction

theorem poly_clmul64Portable (a b : BitVec 64) :
    poly (clmul64Portable a b) = poly a * poly b := by
  have ha : (a.setWidth 128).toNat < 2 ^ 64 := by
    rw [BitVec.toNat_setWidth_of_le (by decide)]
    exact a.isLt
  rw [clmul64Portable, ShiftXor.poly_loop 64 _ _ b ha b.isLt (Nat.le_refl 64) (Nat.le_refl 128),
    poly_zero, zero_add, poly_setWidth a (by decide)]

/-- The loop is the instruction. -/
theorem clmul64Portable_eq (a b : BitVec 64) : clmul64Portable a b = clmulepi64 a b := by
  apply poly_injective
  rw [poly_clmul64Portable, clmulepi64_poly]

@[simp]
theorem low64_xor (a b : BitVec 128) : low64 (a ^^^ b) = low64 a ^^^ low64 b :=
  BitVec.setWidth_xor

@[simp]
theorem high64_xor (a b : BitVec 128) : high64 (a ^^^ b) = high64 a ^^^ high64 b := by
  rw [high64, BitVec.ushiftRight_xor_distrib, BitVec.setWidth_xor]
  rfl

@[simp]
theorem low64_loadu (lo hi : BitVec 64) : low64 (loadu lo hi) = lo := by
  apply BitVec.eq_of_getLsbD_eq
  intro i hi
  rw [low64, loadu, BitVec.getLsbD_setWidth, BitVec.getLsbD_append, if_pos hi]
  simp [hi]

@[simp]
theorem high64_loadu (lo hi : BitVec 64) : high64 (loadu lo hi) = hi := by
  apply BitVec.eq_of_getLsbD_eq
  intro i hi
  rw [high64, loadu, BitVec.getLsbD_setWidth, BitVec.getLsbD_ushiftRight, BitVec.getLsbD_append,
    if_neg (by omega), Nat.add_sub_cancel_left]
  simp [hi]

@[simp]
theorem low64_wide (a : BitVec 64) : low64 (a.setWidth 128) = a := by
  apply BitVec.eq_of_getLsbD_eq
  intro i hi
  simp [low64, hi]

@[simp]
theorem high64_wide (a : BitVec 64) : high64 (a.setWidth 128) = 0#64 := by
  apply BitVec.eq_of_getLsbD_eq
  intro i hi
  simp [high64]

theorem foldRound_eq (x : BitVec 128) :
    foldRound x = clmulepi64 (high64 x) spanQlow ^^^ (low64 x).setWidth 128 := by
  rw [foldRound]
  split
  · rename_i hnone
    have hhigh : high64 x = 0#64 := by
      rw [high64, hnone]
      rfl
    apply poly_injective
    rw [poly_xor, clmulepi64_poly, poly_setWidth _ (by decide), poly_words x, wide, hhigh,
      poly_zero]
    ring
  · rw [clmul64Portable_eq]
    rfl

/-- The portable reduction is the remainder of the long division. -/
theorem poly_reduce (x : BitVec 128) : poly (reduceModPPortable x) = poly x %ₘ spanQ := by
  have hlow : reduceModPPortable x = low64 x ^^^ low64 (clmulepi64 (high64 x) spanQlow) ^^^
      low64 (clmulepi64 (high64 (clmulepi64 (high64 x) spanQlow)) spanQlow) := by
    rw [reduceModPPortable, foldRound_eq (foldRound x), foldRound_eq x, high64_xor, high64_wide,
      BitVec.xor_zero, low64_xor, low64_xor, low64_wide, low64_wide, BitVec.xor_comm,
      BitVec.xor_comm (low64 x)]
  rw [hlow]
  exact fold_twice (poly_words x).symm (clmulepi64_wide _ _) (clmulepi64_wide _ _)

/-- The bits above the degree are clear. -/
theorem bit_above {a : BitVec 64} {k n : ℕ} (h : (poly a).natDegree ≤ k) (hn : k < n) :
    a.getLsbD n = false := by
  have hcoeff := coeff_eq_zero_of_natDegree_lt (h.trans_lt hn)
  rw [poly_coeff] at hcoeff
  cases hbit : a.getLsbD n with
  | false => rfl
  | true => simp [hbit] at hcoeff

/-- The second round by shifts, of a word of four bits. -/
theorem poly_tail {a : BitVec 64} (h : (poly a).natDegree ≤ 3) :
    poly (a <<< 4 ^^^ a <<< 3 ^^^ a <<< 1 ^^^ a) = poly a * poly spanQlow := by
  have hinside {i : ℕ} (hi : i ≤ 4) : poly (a <<< i) = X ^ i * poly a := by
    apply poly_shift_inside a (by omega)
    apply BitVec.eq_of_getLsbD_eq
    intro n _
    rw [BitVec.getLsbD_ushiftRight, BitVec.getLsbD_zero]
    exact bit_above h (by omega)
  rw [poly_xor, poly_xor, poly_xor, hinside (by decide), hinside (by decide),
    hinside (by decide), poly_spanQlow]
  ring

/-- The register reduction is the same remainder. -/
theorem poly_foldReduce (s : BitVec 128) : poly (foldReduce s) = poly s %ₘ spanQ := by
  have ht : wide (low64 (clmulepi64 (high64 s) spanQlow))
      (high64 (clmulepi64 (high64 s) spanQlow)) = poly (high64 s) * poly spanQlow :=
    clmulepi64_wide _ _
  have hthi : (poly (high64 (clmulepi64 (high64 s) spanQlow))).natDegree ≤ 3 :=
    wide_high_natDegree (ht ▸ natDegree_mul_qlow (poly_natDegree_le _))
  have hmask : high64 (clmulepi64 (high64 s) spanQlow) &&& 0xF#64 =
      high64 (clmulepi64 (high64 s) spanQlow) := by
    apply BitVec.eq_of_getLsbD_eq
    intro n _
    rw [BitVec.getLsbD_and]
    rcases Nat.lt_or_ge n 4 with hlow | hhigh
    · have hone : (0xF#64).getLsbD n = true := by
        interval_cases n <;> decide
      rw [hone, Bool.and_true]
    · rw [bit_above hthi (by omega), Bool.false_and]
  have hreduce : foldReduce s = low64 s ^^^ low64 (clmulepi64 (high64 s) spanQlow) ^^^
      (high64 (clmulepi64 (high64 s) spanQlow) <<< 4 ^^^
        high64 (clmulepi64 (high64 s) spanQlow) <<< 3 ^^^
        high64 (clmulepi64 (high64 s) spanQlow) <<< 1 ^^^
        high64 (clmulepi64 (high64 s) spanQlow)) := by
    have hproduct : mmClmulepi64 (unpackhi s s) (spanhashModPLow.setWidth 128) 0x00#8 =
        clmulepi64 (high64 s) spanQlow := by
      rw [mmClmulepi64, if_neg (by decide), if_neg (by decide), unpackhi, low64_loadu, low64_wide]
      rfl
    rw [foldReduce, hproduct]
    simp only [unpackhi, moveEpi64, low64_loadu, high64_xor, high64_loadu, BitVec.xor_zero,
      low64_xor, hmask]
    rw [BitVec.xor_comm (low64 s)]
  rw [hreduce]
  apply fold_twice (poly_words s).symm ht
  rw [wide, poly_zero, mul_zero, add_zero]
  exact poly_tail hthi

theorem foldReduce_eq (s : BitVec 128) : foldReduce s = reduceModPPortable s := by
  apply poly_injective
  rw [poly_foldReduce, poly_reduce]

end Reduction

/-! ## The kernels -/

theorem ternarylogic_xor (a b c : BitVec 128) : ternarylogic a b c 0x96#8 = a ^^^ b ^^^ c := by
  apply BitVec.eq_of_getLsbD_eq
  intro i hi
  have hrows : ternarylogic a b c 0x96#8 = 0#128 ||| ~~~a &&& ~~~b &&& c ||| ~~~a &&& b &&& ~~~c |||
      a &&& ~~~b &&& ~~~c ||| a &&& b &&& c := rfl
  rw [hrows]
  simp only [BitVec.getLsbD_or, BitVec.getLsbD_and, BitVec.getLsbD_not, BitVec.getLsbD_xor,
    BitVec.getLsbD_zero, hi, decide_true, Bool.true_and]
  cases a.getLsbD i <;> cases b.getLsbD i <;> cases c.getLsbD i <;> rfl

/-- The sum of the five products. -/
def products (words : Fin 4 → BitVec 64) (len : BitVec 32) : BitVec 128 :=
  clmulepi64 (words 0) (spanhashKeys 0) ^^^ clmulepi64 (words 1) (spanhashKeys 1) ^^^
    clmulepi64 (words 2) (spanhashKeys 2) ^^^ clmulepi64 (words 3) (spanhashKeys 3) ^^^
    clmulepi64 (len.setWidth 64) (spanhashKeys 4)

section Kernels

variable (words : Fin 4 → BitVec 64) (len : BitVec 32)

theorem portable_products :
    spanhash64Portable words len = reduceModPPortable (products words len) := by
  have hlist : List.finRange 5 = [0, 1, 2, 3, 4] := by decide
  simp only [spanhash64Portable, hlist, List.foldl_cons, List.foldl_nil, clmul64Portable_eq,
    BitVec.zero_xor]
  rfl

theorem low64_length : low64 (len.setWidth 128) = len.setWidth 64 :=
  BitVec.setWidth_setWidth_of_le len (by decide)

theorem pclmul_products :
    spanhash64Pclmul words len = foldReduce (products words len) := by
  have hlow : ¬(0x00#8).getLsbD 0 = true ∧ ¬(0x00#8).getLsbD 4 = true := by decide
  have hhigh : (0x11#8).getLsbD 0 = true ∧ (0x11#8).getLsbD 4 = true := by decide
  simp only [spanhash64Pclmul, products, mmClmulepi64, if_neg hlow.1, if_neg hlow.2, if_pos hhigh.1,
    if_pos hhigh.2, low64_loadu, high64_loadu, low64_wide, low64_length, BitVec.xor_assoc]

theorem vec256_products :
    spanhash64Vec256 words len = foldReduce (products words len) := by
  have hlow : ¬(0x00#8).getLsbD 0 = true ∧ ¬(0x00#8).getLsbD 4 = true := by decide
  have hhigh : (0x11#8).getLsbD 0 = true ∧ (0x11#8).getLsbD 4 = true := by decide
  simp only [spanhash64Vec256, products, mmClmulepi64, ternarylogic_xor, if_neg hlow.1,
    if_neg hlow.2, if_pos hhigh.1, if_pos hhigh.2, Matrix.cons_val_zero, Matrix.cons_val_one,
    low64_loadu, high64_loadu, low64_wide, low64_length, BitVec.xor_assoc]

end Kernels

/-- The portable reduction is the remainder of the long division by the modulus, and the three
kernels agree. -/
theorem spanhash_kernels_agree :
    (∀ x : BitVec 128, poly (reduceModPPortable x) = poly x %ₘ (X ^ 64 + X ^ 4 + X ^ 3 + X + 1)) ∧
      ∀ (words : Fin 4 → BitVec 64) (len : BitVec 32),
        spanhash64Pclmul words len = spanhash64Portable words len ∧
          spanhash64Vec256 words len = spanhash64Portable words len := by
  refine ⟨poly_reduce, fun words len => ?_⟩
  rw [pclmul_products, vec256_products, portable_products, foldReduce_eq]
  exact ⟨rfl, rfl⟩

end HftProj.Testkit.SpanHash
