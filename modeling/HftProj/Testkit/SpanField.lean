import HftProj.Lib.BitPoly
import HftProj.Lib.Literals

/-!
# The span hash field

The words of the span hash are the residues modulo `x⁶⁴ + x⁴ + x³ + x + 1`. The schoolbook
product, its carry-less twin and the long division compute the same remainder of the product.
-/

namespace HftProj.Testkit.SpanField

open HftProj.Lib
open Polynomial

/-! ## The multiplies -/

/-- `SPAN_QLOW`: the modulus without its leading term. -/
def spanQlow : BitVec 64 := 0x1B#64

/-- `clmul128_ref`'s loop at bit `i`, once the rest of `b` is shifted down. -/
@[grind =]
def clmulLoop (a : BitVec 64) :
    ℕ → (b lo hi : BitVec 64) → (i : ℕ) → BitVec 64 × BitVec 64
  | 0, _, lo, hi, _ => (lo, hi)
  | fuel + 1, b, lo, hi, i =>
      if b ≠ 0#64 then
        if b &&& 1#64 ≠ 0#64 then
          clmulLoop a fuel (b >>> 1) (lo ^^^ a <<< i)
            (if 0 < i then hi ^^^ a >>> (64 - i) else hi) (i + 1)
        else clmulLoop a fuel (b >>> 1) lo hi (i + 1)
      else (lo, hi)

/-- `clmul128_ref`: the low and the high word of the carry-less product. -/
def clmul128Ref (a b : BitVec 64) : BitVec 64 × BitVec 64 := clmulLoop a 64 b 0#64 0#64 0

/-- `mulmod_ref`. -/
def mulmodRef (a b : BitVec 64) : BitVec 64 :=
  let p := clmul128Ref a b
  let t := clmul128Ref p.2 spanQlow
  let u := clmul128Ref t.2 spanQlow
  p.1 ^^^ t.1 ^^^ u.1

/-- The carry-less product instruction: the first operand shifted to every set bit of the
second, XORed. -/
def clmulepi64 (a b : BitVec 64) : BitVec 128 :=
  (List.range 64).foldl
    (fun p i => if b.getLsbD i then p ^^^ (a.setWidth 128) <<< i else p) 0#128

/-- The low word of a 128-bit register. -/
def low64 (p : BitVec 128) : BitVec 64 := p.setWidth 64

/-- The high word of a 128-bit register. -/
def high64 (p : BitVec 128) : BitVec 64 := (p >>> 64).setWidth 64

/-- `mulmod_clmul`. -/
def mulmodClmul (a b : BitVec 64) : BitVec 64 :=
  let p := clmulepi64 a b
  let t := clmulepi64 (high64 p) spanQlow
  let u := clmulepi64 (high64 t) spanQlow
  low64 p ^^^ low64 t ^^^ low64 u

/-- `xor_q_at`: the modulus shifted to `pos`, XORed into the two words. -/
def xorQAt (pos : ℕ) (w : BitVec 64 × BitVec 64) : BitVec 64 × BitVec 64 :=
  (List.range 5).foldl (fun w j =>
    if (spanQlow >>> j) &&& 1#64 ≠ 0#64 then
      if pos + j < 64 then (w.1 ^^^ 1#64 <<< (pos + j), w.2)
      else (w.1, w.2 ^^^ 1#64 <<< (pos + j - 64))
    else w) (w.1, w.2 ^^^ 1#64 <<< pos)

/-- `mulmod_divmod_ref`'s loop over the bits below `k` of the high word, from the top. -/
@[grind =]
def divmodLoop : ℕ → BitVec 64 × BitVec 64 → BitVec 64 × BitVec 64
  | 0, w => w
  | k + 1, w => divmodLoop k (if (w.2 >>> k) &&& 1#64 ≠ 0#64 then xorQAt k w else w)

/-- `mulmod_divmod_ref`. -/
def mulmodDivmodRef (a b : BitVec 64) : BitVec 64 := (divmodLoop 64 (clmul128Ref a b)).1

/-- The instruction classes that the dispatching functions test for. -/
structure Cpu where
  pclmulqdq : Bool
  avx512f : Bool
  vpclmulqdq : Bool

/-- `mulmod`. -/
def mulmod (cpu : Cpu) (a b : BitVec 64) : BitVec 64 :=
  if cpu.pclmulqdq then mulmodClmul a b else mulmodRef a b

/-! ## The modulus -/

/-- The modulus of the span hash. -/
noncomputable def spanQ : (ZMod 2)[X] := X ^ 64 + X ^ 4 + X ^ 3 + X + 1

theorem spanQlow_bits :
    spanQlow = 1#64 <<< 4 ^^^ 1#64 <<< 3 ^^^ 1#64 <<< 1 ^^^ 1#64 <<< 0 := by decide

theorem poly_spanQlow : poly spanQlow = X ^ 4 + X ^ 3 + X + 1 := by
  rw [spanQlow_bits, poly_xor, poly_xor, poly_xor, poly_twoPow (by decide),
    poly_twoPow (by decide), poly_twoPow (by decide), poly_twoPow (by decide), pow_one, pow_zero]

theorem spanQ_eq : spanQ = X ^ 64 + poly spanQlow := by
  rw [spanQ, poly_spanQlow]
  ring

theorem poly_spanQlow_degree : (poly spanQlow).degree = 4 := by
  rw [poly_spanQlow]
  compute_degree!

theorem spanQ_monic : spanQ.Monic := by
  rw [spanQ_eq]
  apply monic_X_pow_add
  rw [poly_spanQlow_degree]
  decide

theorem spanQ_degree : spanQ.degree = (64 : ℕ) := by
  rw [spanQ]
  compute_degree!

/-! ## Two words -/

/-- The polynomial of a low and a high word. -/
noncomputable def wide (lo hi : BitVec 64) : (ZMod 2)[X] := poly lo + X ^ 64 * poly hi

theorem wide_high_coeff (lo hi : BitVec 64) (n : ℕ) :
    (poly hi).coeff n = (wide lo hi).coeff (64 + n) := by
  have hlow : lo.getLsbD (64 + n) = false := BitVec.getLsbD_of_ge lo _ (Nat.le_add_right 64 n)
  rw [wide, coeff_add, coeff_X_pow_mul', if_pos (Nat.le_add_right 64 n), Nat.add_sub_cancel_left,
    poly_coeff lo, hlow]
  simp

theorem wide_high_natDegree {lo hi : BitVec 64} {k : ℕ} (h : (wide lo hi).natDegree ≤ 64 + k) :
    (poly hi).natDegree ≤ k := by
  rw [natDegree_le_iff_coeff_eq_zero]
  intro n hn
  rw [wide_high_coeff lo]
  exact coeff_eq_zero_of_natDegree_lt (by omega)

theorem wide_high_zero {lo hi : BitVec 64} (h : (wide lo hi).natDegree < 64) : poly hi = 0 := by
  ext n
  rw [wide_high_coeff lo, coeff_zero]
  exact coeff_eq_zero_of_natDegree_lt (by omega)

theorem natDegree_mul_qlow {p : (ZMod 2)[X]} {k : ℕ} (h : p.natDegree ≤ k) :
    (p * poly spanQlow).natDegree ≤ k + 4 := by
  have hq : (poly spanQlow).natDegree ≤ 4 := natDegree_le_of_degree_le poly_spanQlow_degree.le
  exact natDegree_mul_le.trans (Nat.add_le_add h hq)

/-- Two folds of the high word leave nothing above the low word. -/
theorem fold_twice {lo hi tlo thi ulo uhi : BitVec 64} {p : (ZMod 2)[X]} (hp : wide lo hi = p)
    (ht : wide tlo thi = poly hi * poly spanQlow)
    (hu : wide ulo uhi = poly thi * poly spanQlow) :
    poly (lo ^^^ tlo ^^^ ulo) = p %ₘ spanQ := by
  have hthi : (poly thi).natDegree ≤ 3 :=
    wide_high_natDegree (ht ▸ natDegree_mul_qlow (poly_natDegree_le hi))
  have huhi : poly uhi = 0 :=
    wide_high_zero (hu ▸ (natDegree_mul_qlow hthi).trans_lt (by decide))
  apply poly_eq_modByMonic spanQ_monic spanQ_degree
  have htwo : (2 : (ZMod 2)[X]) = 0 := CharTwo.two_eq_zero
  refine ⟨poly hi - poly thi, ?_⟩
  rw [wide] at hp ht hu
  rw [huhi] at hu
  rw [poly_xor, poly_xor, spanQ_eq]
  linear_combination -hp + ht - hu - poly tlo * htwo

/-! ## The products -/

theorem bit_at (b : BitVec 64) (k : ℕ) : (b >>> k) &&& 1#64 ≠ 0#64 ↔ b.getLsbD k = true := by
  rw [lowest_bit, BitVec.getLsbD_ushiftRight, Nat.add_zero]

/-- What one taken bit adds. -/
theorem wide_shift (lo hi a : BitVec 64) {i : ℕ} (hi64 : i < 64) :
    wide (lo ^^^ a <<< i) (if 0 < i then hi ^^^ a >>> (64 - i) else hi) =
      wide lo hi + X ^ i * poly a := by
  have hhigh : (if 0 < i then hi ^^^ a >>> (64 - i) else hi) = hi ^^^ a >>> (64 - i) := by
    rcases Nat.eq_zero_or_pos i with rfl | hpos
    · have hout : a >>> 64 = 0#64 := BitVec.ushiftRight_eq_zero (Nat.le_refl 64)
      simp [hout]
    · rw [if_pos hpos]
  rw [hhigh, wide, wide, poly_xor, poly_xor, poly_shift a (Nat.le_of_lt hi64)]
  ring

/-- As many rounds as bits are left exhaust the second operand. -/
theorem clmulLoop_wide (a : BitVec 64) (fuel : ℕ) (b lo hi : BitVec 64) (i : ℕ)
    (hfuel : fuel + i = 64) (hb : b.toNat < 2 ^ fuel) :
    wide (clmulLoop a fuel b lo hi i).1 (clmulLoop a fuel b lo hi i).2 =
      wide lo hi + X ^ i * (poly a * poly b) := by
  induction fuel generalizing b lo hi i with
  | zero =>
      have hzero : b = 0#64 := BitVec.eq_of_toNat_eq (by simpa using hb)
      rw [clmulLoop, hzero, poly_zero]
      ring
  | succ fuel ih =>
      have hshift : (b >>> 1).toNat < 2 ^ fuel := by
        rw [BitVec.toNat_ushiftRight, Nat.shiftRight_eq_div_pow]
        omega
      rw [clmulLoop]
      split
      · split
        · rename_i hbit
          rw [ih _ _ _ _ (by omega) hshift, wide_shift _ _ _ (by omega), poly_lowest b,
            if_pos ((lowest_bit b).mp hbit)]
          ring
        · rename_i hbit
          rw [ih _ _ _ _ (by omega) hshift, poly_lowest b,
            if_neg (fun h => hbit ((lowest_bit b).mpr h))]
          ring
      · rename_i hzero
        rw [not_not.mp hzero, poly_zero]
        ring

theorem clmul128Ref_wide (a b : BitVec 64) :
    wide (clmul128Ref a b).1 (clmul128Ref a b).2 = poly a * poly b := by
  rw [clmul128Ref, clmulLoop_wide a 64 b 0#64 0#64 0 rfl b.isLt, wide, poly_zero]
  ring

theorem mulmodRef_poly (a b : BitVec 64) :
    poly (mulmodRef a b) = (poly a * poly b) %ₘ spanQ :=
  fold_twice (clmul128Ref_wide a b) (clmul128Ref_wide _ _) (clmul128Ref_wide _ _)

theorem poly_words (p : BitVec 128) : poly p = wide (low64 p) (high64 p) := by
  ext n
  rw [wide, coeff_add, coeff_X_pow_mul', poly_coeff, poly_coeff, low64, high64,
    BitVec.getLsbD_setWidth]
  rcases Nat.lt_or_ge n 64 with hn | hn
  · simp [hn, Nat.not_le.mpr hn]
  · rw [if_pos hn, poly_coeff, BitVec.getLsbD_setWidth, BitVec.getLsbD_ushiftRight,
      Nat.add_sub_of_le hn]
    rcases Nat.lt_or_ge n 128 with hin | hout
    · have hword : n - 64 < 64 := by omega
      simp [Nat.not_lt.mpr hn, hword]
    · simp [Nat.not_lt.mpr hn, BitVec.getLsbD_of_ge p n hout]

/-- A word shifted inside a double word. -/
theorem poly_inside (a : BitVec 64) {i : ℕ} (hi : i < 64) :
    poly (a.setWidth 128 <<< i) = X ^ i * poly a := by
  have hout : a.setWidth 128 >>> (128 - i) = 0#128 := by
    apply BitVec.eq_of_getLsbD_eq
    intro n _
    rw [BitVec.getLsbD_ushiftRight, BitVec.getLsbD_setWidth,
      BitVec.getLsbD_of_ge a _ (by omega : 64 ≤ 128 - i + n)]
    simp
  rw [poly_shift_inside _ (by omega) hout, poly_setWidth a (by decide)]

theorem clmulepi64_poly (a b : BitVec 64) : poly (clmulepi64 a b) = poly a * poly b := by
  have hrange (n : ℕ) (hn : n ≤ 64) :
      poly ((List.range n).foldl
        (fun p i => if b.getLsbD i then p ^^^ (a.setWidth 128) <<< i else p) 0#128) =
      poly a * ∑ i ∈ Finset.range n, if b.getLsbD i then X ^ i else 0 := by
    induction n with
    | zero => simp
    | succ n ih =>
        rw [List.range_succ, List.foldl_append, List.foldl_cons, List.foldl_nil,
          Finset.sum_range_succ, mul_add, ← ih (by omega)]
        split
        · rw [poly_xor, poly_inside a (by omega), mul_comm (X ^ n)]
        · rw [mul_zero, add_zero]
  rw [clmulepi64, hrange 64 (Nat.le_refl 64), ← poly_eq_sum]

theorem clmulepi64_wide (a b : BitVec 64) :
    wide (low64 (clmulepi64 a b)) (high64 (clmulepi64 a b)) = poly a * poly b :=
  (poly_words _).symm.trans (clmulepi64_poly a b)

theorem mulmodClmul_poly (a b : BitVec 64) :
    poly (mulmodClmul a b) = (poly a * poly b) %ₘ spanQ :=
  fold_twice (clmulepi64_wide a b) (clmulepi64_wide _ _) (clmulepi64_wide _ _)

/-! ## The long division -/

/-- One flipped bit of the two words. -/
theorem wide_flip (w : BitVec 64 × BitVec 64) {k : ℕ} (hk : k < 128) :
    let w' := if k < 64 then (w.1 ^^^ 1#64 <<< k, w.2) else (w.1, w.2 ^^^ 1#64 <<< (k - 64))
    wide w'.1 w'.2 = wide w.1 w.2 + X ^ k := by
  intro w'
  rcases Nat.lt_or_ge k 64 with hlow | hhigh
  · simp only [w', if_pos hlow, wide]
    rw [poly_xor, poly_twoPow hlow]
    ring
  · have hsplit : (X : (ZMod 2)[X]) ^ k = X ^ 64 * X ^ (k - 64) := by
      rw [← pow_add, Nat.add_sub_of_le hhigh]
    simp only [w', if_neg (Nat.not_lt.mpr hhigh), wide]
    rw [poly_xor, poly_twoPow (by omega), hsplit]
    ring

/-- `xor_q_at` adds the shifted modulus. -/
theorem xorQAt_wide (w : BitVec 64 × BitVec 64) {pos : ℕ} (hpos : pos < 64) :
    wide (xorQAt pos w).1 (xorQAt pos w).2 = wide w.1 w.2 + X ^ pos * spanQ := by
  have hflip (v : BitVec 64 × BitVec 64) {j : ℕ} (hj : j < 5) :=
    wide_flip v (show pos + j < 128 by omega)
  have htop : wide w.1 (w.2 ^^^ 1#64 <<< pos) = wide w.1 w.2 + X ^ pos * X ^ 64 := by
    rw [wide, wide, poly_xor, poly_twoPow hpos]
    ring
  have hlist : List.range 5 = [0, 1, 2, 3, 4] := rfl
  have h0 : (spanQlow >>> 0) &&& 1#64 ≠ 0#64 := by decide
  have h1 : (spanQlow >>> 1) &&& 1#64 ≠ 0#64 := by decide
  have h2 : ¬ (spanQlow >>> 2) &&& 1#64 ≠ 0#64 := by decide
  have h3 : (spanQlow >>> 3) &&& 1#64 ≠ 0#64 := by decide
  have h4 : (spanQlow >>> 4) &&& 1#64 ≠ 0#64 := by decide
  simp only [xorQAt, hlist, List.foldl_cons, List.foldl_nil, if_pos h0, if_pos h1, if_neg h2,
    if_pos h3, if_pos h4]
  rw [hflip _ (by decide), hflip _ (by decide), hflip _ (by decide),
    hflip (w.1, w.2 ^^^ 1#64 <<< pos) (show 0 < 5 by decide), htop, spanQ]
  ring

/-- From `pos` on, only the leading bit of the shifted modulus reaches the high word. -/
theorem xorQAt_high (w : BitVec 64 × BitVec 64) {pos n : ℕ} (hpos : pos < 64) (hn : pos ≤ n) :
    (xorQAt pos w).2.getLsbD n = (w.2.getLsbD n ^^ decide (n = pos)) := by
  have htop : (w.2 ^^^ 1#64 <<< pos).getLsbD n = (w.2.getLsbD n ^^ decide (n = pos)) := by
    rw [BitVec.getLsbD_xor, BitVec.getLsbD_shiftLeft, BitVec.getLsbD_one]
    congr 1
    rw [Bool.eq_iff_iff]
    simp
    omega
  have hstep (xs : List ℕ) (hxs : ∀ j ∈ xs, j < 5) (v : BitVec 64 × BitVec 64) :
      (xs.foldl (fun w j =>
        if (spanQlow >>> j) &&& 1#64 ≠ 0#64 then
          if pos + j < 64 then (w.1 ^^^ 1#64 <<< (pos + j), w.2)
          else (w.1, w.2 ^^^ 1#64 <<< (pos + j - 64))
        else w) v).2.getLsbD n = v.2.getLsbD n := by
    induction xs generalizing v with
    | nil => rfl
    | cons j xs ih =>
        have hj : j < 5 := hxs j (List.mem_cons_self ..)
        rw [List.foldl_cons, ih fun i hi => hxs i (List.mem_cons_of_mem j hi)]
        split
        · split
          · rfl
          · have hlow : ¬ n < 64 ∨ ¬ n - (pos + j - 64) = 0 := by omega
            rw [BitVec.getLsbD_xor, BitVec.getLsbD_shiftLeft, BitVec.getLsbD_one]
            rcases hlow with hlow | hlow <;> simp [hlow]
        · rfl
  rw [xorQAt, hstep _ fun j hj => List.mem_range.mp hj]
  exact htop

/-- The division clears the high word and keeps the class of the two words. -/
theorem divmodLoop_spec (k : ℕ) (w : BitVec 64 × BitVec 64) (hk : k ≤ 64)
    (hhigh : ∀ n, k ≤ n → w.2.getLsbD n = false) :
    (divmodLoop k w).2 = 0#64 ∧
      spanQ ∣ wide w.1 w.2 - wide (divmodLoop k w).1 (divmodLoop k w).2 := by
  induction k generalizing w with
  | zero =>
      constructor
      · apply BitVec.eq_of_getLsbD_eq
        intro n _
        rw [divmodLoop, hhigh n (Nat.zero_le n), BitVec.getLsbD_zero]
      · rw [divmodLoop, sub_self]
        exact dvd_zero spanQ
  | succ k ih =>
      rw [divmodLoop]
      split
      · rename_i hbit
        have hclear (n : ℕ) (hn : k ≤ n) : (xorQAt k w).2.getLsbD n = false := by
          rw [xorQAt_high w (by omega) hn]
          rcases Nat.eq_or_lt_of_le hn with rfl | hlt
          · rw [(bit_at w.2 _).mp hbit]
            simp
          · rw [hhigh n hlt]
            simp [Nat.ne_of_gt hlt]
        obtain ⟨hzero, hdvd⟩ := ih (xorQAt k w) (by omega) hclear
        refine ⟨hzero, ?_⟩
        rw [xorQAt_wide w (by omega)] at hdvd
        obtain ⟨q, hq⟩ := hdvd
        exact ⟨q - X ^ k, by linear_combination hq⟩
      · rename_i hbit
        apply ih w (by omega)
        intro n hn
        rcases Nat.eq_or_lt_of_le hn with rfl | hlt
        · exact Bool.eq_false_iff.mpr fun h => hbit ((bit_at w.2 _).mpr h)
        · exact hhigh n hlt

/-- The final check of the long division holds. -/
theorem divmod_clears (a b : BitVec 64) : (divmodLoop 64 (clmul128Ref a b)).2 = 0#64 :=
  (divmodLoop_spec 64 _ (Nat.le_refl 64) fun n hn => BitVec.getLsbD_of_ge _ n hn).1

theorem mulmodDivmodRef_poly (a b : BitVec 64) :
    poly (mulmodDivmodRef a b) = (poly a * poly b) %ₘ spanQ := by
  obtain ⟨hzero, hdvd⟩ := divmodLoop_spec 64 (clmul128Ref a b) (Nat.le_refl 64)
    fun n hn => BitVec.getLsbD_of_ge _ n hn
  apply poly_eq_modByMonic spanQ_monic spanQ_degree
  rw [hzero, clmul128Ref_wide, wide, poly_zero, mul_zero, add_zero] at hdvd
  exact hdvd

/-! ## The laws -/

theorem mulmod_poly (cpu : Cpu) (a b : BitVec 64) :
    poly (mulmod cpu a b) = (poly a * poly b) %ₘ spanQ := by
  rw [mulmod]
  split
  · exact mulmodClmul_poly a b
  · exact mulmodRef_poly a b

/-- The class of a word in the span hash ring. -/
noncomputable def res (a : BitVec 64) : AdjoinRoot spanQ := residue spanQ a

theorem res_injective : Function.Injective res := residue_injective spanQ_monic spanQ_degree

@[simp]
theorem res_zero : res 0#64 = 0 := residue_zero

@[simp]
theorem res_one : res 1#64 = 1 := residue_one (by decide)

@[simp]
theorem res_xor (a b : BitVec 64) : res (a ^^^ b) = res a + res b := residue_xor

@[simp]
theorem res_mulmod (cpu : Cpu) (a b : BitVec 64) : res (mulmod cpu a b) = res a * res b := by
  have hpoly := mulmod_poly cpu a b
  rw [modByMonic_eq_sub_mul_div] at hpoly
  rw [res, residue, hpoly, map_sub, map_mul, map_mul, AdjoinRoot.mk_self, zero_mul, sub_zero]
  rfl

/-- The ring has characteristic two. -/
theorem res_two : (2 : AdjoinRoot spanQ) = 0 := by
  have htwo : (2 : (ZMod 2)[X]) = 0 := CharTwo.two_eq_zero
  rw [← map_ofNat (AdjoinRoot.mk spanQ) 2, htwo, map_zero]

theorem mulmod_comm (cpu : Cpu) (a b : BitVec 64) : mulmod cpu a b = mulmod cpu b a := by
  apply res_injective
  rw [res_mulmod, res_mulmod, mul_comm]

theorem mulmod_assoc (cpu : Cpu) (a b c : BitVec 64) :
    mulmod cpu (mulmod cpu a b) c = mulmod cpu a (mulmod cpu b c) := by
  apply res_injective
  rw [res_mulmod, res_mulmod, res_mulmod, res_mulmod, mul_assoc]

theorem mulmod_xor (cpu : Cpu) (a b c : BitVec 64) :
    mulmod cpu a (b ^^^ c) = mulmod cpu a b ^^^ mulmod cpu a c := by
  apply res_injective
  rw [res_mulmod, res_xor, res_xor, res_mulmod, res_mulmod, mul_add]

theorem xor_mulmod (cpu : Cpu) (a b c : BitVec 64) :
    mulmod cpu (a ^^^ b) c = mulmod cpu a c ^^^ mulmod cpu b c := by
  rw [mulmod_comm, mulmod_xor, mulmod_comm cpu c a, mulmod_comm cpu c b]

@[simp]
theorem mulmod_one (cpu : Cpu) (a : BitVec 64) : mulmod cpu a 1#64 = a := by
  apply res_injective
  rw [res_mulmod, res_one, mul_one]

@[simp]
theorem one_mulmod (cpu : Cpu) (a : BitVec 64) : mulmod cpu 1#64 a = a := by
  rw [mulmod_comm, mulmod_one]

/-- The presence of the instruction does not show. -/
theorem mulmod_paths (cpu cpu' : Cpu) (a b : BitVec 64) :
    mulmod cpu a b = mulmod cpu' a b := by
  apply res_injective
  rw [res_mulmod, res_mulmod]

/-- The three multiplies compute the remainder of the polynomial product, and the dispatching
one is the multiplication of a commutative ring whose addition is XOR. -/
theorem mulmod_is_remainder :
    (∀ a b : BitVec 64,
      poly (mulmodRef a b) = (poly a * poly b) %ₘ spanQ ∧
        poly (mulmodClmul a b) = (poly a * poly b) %ₘ spanQ ∧
        poly (mulmodDivmodRef a b) = (poly a * poly b) %ₘ spanQ) ∧
      ∀ cpu : Cpu,
        (∀ a b, mulmod cpu a b = mulmod cpu b a) ∧
        (∀ a b c, mulmod cpu (mulmod cpu a b) c = mulmod cpu a (mulmod cpu b c)) ∧
        (∀ a b c, mulmod cpu a (b ^^^ c) = mulmod cpu a b ^^^ mulmod cpu a c) ∧
        (∀ a b c, mulmod cpu (a ^^^ b) c = mulmod cpu a c ^^^ mulmod cpu b c) ∧
        ∀ a, mulmod cpu 1#64 a = a ∧ mulmod cpu a 1#64 = a := by
  constructor
  · intro a b
    exact ⟨mulmodRef_poly a b, mulmodClmul_poly a b, mulmodDivmodRef_poly a b⟩
  · intro cpu
    exact ⟨mulmod_comm cpu, mulmod_assoc cpu, mulmod_xor cpu, xor_mulmod cpu,
      fun a => ⟨one_mulmod cpu a, mulmod_one cpu a⟩⟩

/-- A product that leaves the low word. -/
example : mulmodRef (1#64 <<< 63) 2#64 = spanQlow ∧
    mulmodDivmodRef (1#64 <<< 63) 2#64 = spanQlow := by decide +kernel

end HftProj.Testkit.SpanField
