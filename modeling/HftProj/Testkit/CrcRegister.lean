import HftProj.Lib.BitPoly
import HftProj.Lib.Word
import Mathlib.Data.List.GetD

/-!
# The checksum register

The register takes a bit, a byte or a word at a time. The instruction divides the reflected word
and the reflected register by the polynomial; the portable form shifts the register and XORs the
reflected polynomial. Both take a word as they take its bytes, the low one first.
-/

namespace HftProj.Testkit.CrcRegister

open HftProj.Lib
open Polynomial

/-! ## The portable form -/

/-- `CRC32C_POLY_REFLECTED`. -/
def crc32cPolyReflected : BitVec 32 := 0x82F63B78#32

/-- One round of the register. -/
def bitStep (c : BitVec 32) : BitVec 32 :=
  if c &&& 1#32 ≠ 0#32 then c >>> 1 ^^^ crc32cPolyReflected else c >>> 1

/-- `crc8`, the portable `crc32c_u8`. -/
def crc8 (c : BitVec 32) (b : BitVec 8) : BitVec 32 := bitStep^[8] (c ^^^ b.setWidth 32)

/-- A byte of `to_le_bytes`. -/
def leByte {n : ℕ} (w : BitVec n) (i : ℕ) : BitVec 8 := (w >>> (8 * i)).setWidth 8

/-- The portable `crc32c_u16`. -/
def portableU16 (c : BitVec 32) (w : BitVec 16) : BitVec 32 :=
  crc8 (crc8 c (leByte w 0)) (leByte w 1)

/-- The portable `crc32c_u32`. -/
def portableU32 (c : BitVec 32) (w : BitVec 32) : BitVec 32 :=
  portableU16 (portableU16 c (leByte w 1 ++ leByte w 0)) (leByte w 3 ++ leByte w 2)

/-- The portable `crc32c_u64`. -/
def portableU64 (c : BitVec 32) (w : BitVec 64) : BitVec 32 :=
  portableU32 (portableU32 c (leByte w 3 ++ leByte w 2 ++ leByte w 1 ++ leByte w 0))
    (leByte w 7 ++ leByte w 6 ++ leByte w 5 ++ leByte w 4)

/-! ## The instruction -/

/-- The polynomial of degree 32. -/
def crc32cPoly : BitVec 33 := 0x11EDC6F41#33

/-- The remainder modulo two, by long division of what has so many bits above the low 32. -/
@[grind =]
def mod2 {v : ℕ} : ℕ → BitVec v → BitVec v
  | 0, t => t
  | n + 1, t => mod2 n (if t.getLsbD (32 + n) then t ^^^ crc32cPoly.setWidth v <<< n else t)

/-- The CRC32 instruction with a source of `n` bits. -/
def mmCrc32 {n : ℕ} (dest : BitVec 32) (src : BitVec n) : BitVec 32 :=
  let temp1 := src.reverse
  let temp2 := dest.reverse
  let temp3 := temp1.setWidth (n + 32) <<< 32
  let temp4 := temp2.setWidth (n + 32) <<< n
  let temp5 := temp3 ^^^ temp4
  let temp6 := (mod2 n temp5).setWidth 32
  temp6.reverse

/-- `_mm_crc32_u64`: the destination is a qword, its high half zero. -/
def mmCrc32U64 (dest src : BitVec 64) : BitVec 64 := (mmCrc32 (dest.setWidth 32) src).setWidth 64

/-- `crc32c_u8` on either target, and the wider ones. -/
def crc32cU8 (x86 : Bool) (c : BitVec 32) (w : BitVec 8) : BitVec 32 :=
  if x86 then mmCrc32 c w else crc8 c w

def crc32cU16 (x86 : Bool) (c : BitVec 32) (w : BitVec 16) : BitVec 32 :=
  if x86 then mmCrc32 c w else portableU16 c w

def crc32cU32 (x86 : Bool) (c : BitVec 32) (w : BitVec 32) : BitVec 32 :=
  if x86 then mmCrc32 c w else portableU32 c w

def crc32cU64 (x86 : Bool) (c : BitVec 32) (w : BitVec 64) : BitVec 32 :=
  if x86 then (mmCrc32U64 (c.setWidth 64) w).setWidth 32 else portableU64 c w

/-! ## Bytes -/

/-- The register behind a byte string. -/
def crcBytes (c : BitVec 32) (bytes : List UInt8) : BitVec 32 :=
  bytes.foldl (fun c b => crc8 c b.toBitVec) c

/-- `from_le_bytes`. -/
def leWord (n : ℕ) (bytes : List UInt8) : BitVec n := BitVec.ofNat n (fromLeBytes bytes)

theorem crcBytes_append (c : BitVec 32) (xs ys : List UInt8) :
    crcBytes c (xs ++ ys) = crcBytes (crcBytes c xs) ys := List.foldl_append

theorem crcBytes_snoc (c : BitVec 32) (bytes : List UInt8) (b : UInt8) :
    crcBytes c (bytes ++ [b]) = crc8 (crcBytes c bytes) b.toBitVec := List.foldl_append

/-- A bit of a byte string's value is a bit of one of its bytes. -/
theorem testBit_fromLeBytes (bytes : List UInt8) (j : ℕ) :
    (fromLeBytes bytes).testBit j = (bytes.getD (j / 8) 0).toBitVec.getLsbD (j % 8) := by
  induction bytes generalizing j with
  | nil => simp [fromLeBytes]
  | cons b bytes ih =>
      have hsplit : fromLeBytes (b :: bytes) = 2 ^ 8 * fromLeBytes bytes + b.toNat := by
        rw [fromLeBytes]
        omega
      rw [hsplit, Nat.testBit_two_pow_mul_add _ b.toNat_lt]
      split
      · rename_i hlow
        rw [Nat.div_eq_of_lt hlow, Nat.mod_eq_of_lt hlow]
        rfl
      · rename_i hhigh
        have hquot : j / 8 = (j - 8) / 8 + 1 := by omega
        have hrem : j % 8 = (j - 8) % 8 := by omega
        rw [ih, hquot, hrem, List.getD_cons_succ]

theorem getLsbD_leWord {n j : ℕ} (hj : j < n) (bytes : List UInt8) :
    (leWord n bytes).getLsbD j = (bytes.getD (j / 8) 0).toBitVec.getLsbD (j % 8) := by
  rw [leWord, BitVec.getLsbD_ofNat, testBit_fromLeBytes, decide_eq_true hj, Bool.true_and]

/-- The bytes of a word that is read from bytes. -/
theorem leByte_leWord {n i : ℕ} (hi : 8 * (i + 1) ≤ n) (bytes : List UInt8) :
    leByte (leWord n bytes) i = (bytes.getD i 0).toBitVec := by
  apply BitVec.eq_of_getLsbD_eq
  intro j hj
  have hquot : (8 * i + j) / 8 = i := by omega
  have hrem : (8 * i + j) % 8 = j := by omega
  rw [leByte, BitVec.getLsbD_setWidth, BitVec.getLsbD_ushiftRight, getLsbD_leWord (by omega), hquot,
    hrem, decide_eq_true hj, Bool.true_and]

/-- Every word of whole bytes is read from its bytes. -/
theorem leWord_leByte (k : ℕ) (w : BitVec (8 * k)) :
    leWord (8 * k) ((List.range k).map fun i => ⟨leByte w i⟩) = w := by
  apply BitVec.eq_of_getLsbD_eq
  intro j hj
  have hlt : j / 8 < k := by omega
  have hsum : 8 * (j / 8) + j % 8 = j := by omega
  have hget : ((List.range k).map fun i => (⟨leByte w i⟩ : UInt8)).getD (j / 8) 0 =
      ⟨leByte w (j / 8)⟩ := by
    simp [hlt]
  rw [getLsbD_leWord hj, hget, leByte, BitVec.getLsbD_setWidth, BitVec.getLsbD_ushiftRight, hsum,
    decide_eq_true (Nat.mod_lt _ (by decide)), Bool.true_and]

/-! ## The reflected register -/

/-- The polynomial of the checksum. -/
noncomputable def crcPoly : (ZMod 2)[X] := poly crc32cPoly

/-- The class of the reflected word. -/
noncomputable def reflected {n : ℕ} (w : BitVec n) : AdjoinRoot crcPoly := residue crcPoly w.reverse

/-- The class of the variable. -/
noncomputable def root : AdjoinRoot crcPoly := AdjoinRoot.root crcPoly

/-- The polynomial without its leading term. -/
def polyLow : BitVec 32 := 0x1EDC6F41#32

theorem crcPoly_eq : crcPoly = X ^ 32 + poly polyLow := by
  have hbits : crc32cPoly = 1#33 <<< 32 ^^^ polyLow.setWidth 33 := by decide
  rw [crcPoly, hbits, poly_xor, poly_twoPow (by decide), poly_setWidth _ (by decide)]

theorem crcPoly_monic : crcPoly.Monic := by
  rw [crcPoly_eq]
  exact monic_X_pow_add (poly_degree_lt polyLow)

theorem crcPoly_degree : crcPoly.degree = (32 : ℕ) := by
  rw [crcPoly_eq, degree_add_eq_left_of_degree_lt, degree_X_pow]
  rw [degree_X_pow]
  exact poly_degree_lt polyLow

theorem mk_X_pow (k : ℕ) : AdjoinRoot.mk crcPoly (X ^ k) = root ^ k := by
  rw [map_pow, AdjoinRoot.mk_X]
  rfl

theorem root_pow_degree : root ^ 32 = residue crcPoly polyLow := by
  rw [← mk_X_pow, residue, ← sub_eq_zero, ← map_sub, CharTwo.sub_eq_add, ← crcPoly_eq,
    AdjoinRoot.mk_self]

theorem reverse_xor {n : ℕ} (a b : BitVec n) : (a ^^^ b).reverse = a.reverse ^^^ b.reverse := by
  apply BitVec.eq_of_getLsbD_eq
  intro i _
  simp only [BitVec.getLsbD_xor, BitVec.getLsbD_reverse, BitVec.getMsbD_xor]

theorem reflected_xor {n : ℕ} (a b : BitVec n) :
    reflected (a ^^^ b) = reflected a + reflected b := by
  rw [reflected, reverse_xor, residue_xor]
  rfl

/-- Registers are told apart by the classes of their reflections. -/
theorem reflected_injective : Function.Injective (reflected : BitVec 32 → AdjoinRoot crcPoly) := by
  intro a b h
  have hreverse := residue_injective crcPoly_monic crcPoly_degree h
  rw [← BitVec.reverse_reverse_eq (x := a), hreverse, BitVec.reverse_reverse_eq]

theorem reverse_shift (c : BitVec 32) : (c >>> 1).reverse = c.reverse <<< 1 := by
  apply BitVec.eq_of_getLsbD_eq
  intro i hi
  rw [BitVec.getLsbD_reverse, BitVec.getLsbD_shiftLeft, BitVec.getLsbD_reverse,
    BitVec.getMsbD_eq_getLsbD, BitVec.getMsbD_eq_getLsbD, BitVec.getLsbD_ushiftRight]
  rcases Nat.eq_zero_or_pos i with rfl | hpos
  · simp
  · have hone : 1 ≤ i := hpos
    have hindex : 1 + (32 - 1 - i) = 32 - 1 - (i - 1) := by omega
    simp [hi, Nat.not_lt.mpr hone, hindex]
    omega

/-- A round multiplies the reflected register by the variable. -/
theorem reflected_bitStep (c : BitVec 32) : reflected (bitStep c) = root * reflected c := by
  have hcarry : poly (c.reverse >>> 31) = if c.getLsbD 0 then 1 else 0 := by
    ext n
    rw [poly_coeff, BitVec.getLsbD_ushiftRight, BitVec.getLsbD_reverse, BitVec.getMsbD_eq_getLsbD]
    rcases Nat.eq_zero_or_pos n with rfl | hpos
    · cases c.getLsbD 0 <;> simp
    · have hout : ¬ 31 + n < 32 := by omega
      cases c.getLsbD 0 <;> simp [hout, coeff_one, Nat.ne_of_gt hpos]
  have hshift := poly_shift c.reverse (show 1 ≤ 32 by decide)
  rw [pow_one, hcarry] at hshift
  have hmul : root * reflected c = residue crcPoly (c.reverse <<< 1) +
      if c.getLsbD 0 then root ^ 32 else 0 := by
    have hclass := congrArg (AdjoinRoot.mk crcPoly) hshift
    rw [map_mul, AdjoinRoot.mk_X, map_add, map_mul, mk_X_pow] at hclass
    refine hclass.trans ?_
    cases c.getLsbD 0 <;> simp [residue]
  rw [hmul, bitStep]
  split
  · rename_i hbit
    have hreflected : crc32cPolyReflected.reverse = polyLow := by decide +kernel
    rw [if_pos ((lowest_bit c).mp hbit), reflected, reverse_xor, reverse_shift, hreflected,
      residue_xor, root_pow_degree]
  · rename_i hbit
    rw [if_neg (fun h => hbit ((lowest_bit c).mpr h)), reflected, reverse_shift, add_zero]

theorem reflected_iterate (k : ℕ) (c : BitVec 32) :
    reflected (bitStep^[k] c) = root ^ k * reflected c := by
  induction k with
  | zero => rw [pow_zero, one_mul, Function.iterate_zero_apply]
  | succ k ih => rw [Function.iterate_succ_apply', reflected_bitStep, ih, pow_succ', mul_assoc]

theorem reflected_wide (b : BitVec 8) : reflected (b.setWidth 32) = root ^ 24 * reflected b := by
  have hpoly : poly (b.setWidth 32).reverse = X ^ 24 * poly b.reverse := by
    ext n
    rw [coeff_X_pow_mul', poly_coeff, BitVec.getLsbD_reverse, BitVec.getMsbD_eq_getLsbD,
      BitVec.getLsbD_setWidth]
    rcases Nat.lt_or_ge n 24 with hlow | hhigh
    · have hzero : b.getLsbD (32 - 1 - n) = false := BitVec.getLsbD_of_ge b _ (by omega)
      simp [hzero, Nat.not_le.mpr hlow]
    · rw [if_pos hhigh, poly_coeff, BitVec.getLsbD_reverse, BitVec.getMsbD_eq_getLsbD]
      rcases Nat.lt_or_ge n 32 with hlt | hge
      · have hindex : 32 - 1 - n = 8 - 1 - (n - 24) := by omega
        have hsmall : n - 24 < 8 := by omega
        have hbyte : 8 - 1 - (n - 24) < 32 := by omega
        rw [hindex, decide_eq_true hlt, decide_eq_true hsmall, decide_eq_true hbyte, Bool.true_and]
      · have hlarge : ¬ n - 24 < 8 := by omega
        rw [decide_eq_false (Nat.not_lt.mpr hge), decide_eq_false hlarge, Bool.false_and,
          Bool.false_and]
  rw [reflected, residue, hpoly, map_mul, mk_X_pow]
  rfl

theorem reflected_crc8 (c : BitVec 32) (b : BitVec 8) :
    reflected (crc8 c b) = root ^ 8 * reflected c + root ^ 32 * reflected b := by
  rw [crc8, reflected_iterate, reflected_xor, reflected_wide]
  ring

/-- The polynomial of the reflected bytes, the first byte highest. -/
noncomputable def bytesPoly (bytes : List UInt8) : (ZMod 2)[X] :=
  bytes.foldl (fun p b => X ^ 8 * p + poly b.toBitVec.reverse) 0

theorem bytesPoly_snoc (bytes : List UInt8) (b : UInt8) :
    bytesPoly (bytes ++ [b]) = X ^ 8 * bytesPoly bytes + poly b.toBitVec.reverse :=
  List.foldl_append

/-- The register behind a byte string: the register that it starts from and the string. -/
theorem reflected_crcBytes (c : BitVec 32) (bytes : List UInt8) :
    reflected (crcBytes c bytes) = root ^ (8 * bytes.length) * reflected c +
      root ^ 32 * AdjoinRoot.mk crcPoly (bytesPoly bytes) := by
  induction bytes using List.reverseRecOn with
  | nil =>
      rw [List.length_nil, Nat.mul_zero, pow_zero, one_mul, bytesPoly, List.foldl_nil, map_zero,
        mul_zero, add_zero]
      rfl
  | append_singleton bytes b ih =>
      rw [crcBytes_snoc, reflected_crc8, ih, bytesPoly_snoc, map_add, map_mul, mk_X_pow,
        List.length_append, List.length_singleton, Nat.mul_succ]
      simp only [reflected, residue]
      ring

/-- A word that is read from bytes, reflected. -/
theorem poly_reverse_leWord {n : ℕ} (bytes : List UInt8) (hn : n = 8 * bytes.length) :
    poly (leWord n bytes).reverse = bytesPoly bytes := by
  induction bytes using List.reverseRecOn generalizing n with
  | nil =>
      subst hn
      ext k
      rw [poly_coeff, BitVec.getLsbD_of_ge _ _ (Nat.zero_le k)]
      rfl
  | append_singleton bytes b ih =>
      rw [List.length_append, List.length_singleton] at hn
      rw [bytesPoly_snoc, ← ih rfl]
      ext k
      rw [coeff_add, coeff_X_pow_mul', poly_coeff, poly_coeff, poly_coeff, BitVec.getLsbD_reverse,
        BitVec.getLsbD_reverse, BitVec.getLsbD_reverse, BitVec.getMsbD_eq_getLsbD,
        BitVec.getMsbD_eq_getLsbD, BitVec.getMsbD_eq_getLsbD]
      rcases Nat.lt_or_ge k 8 with hlow | hhigh
      · have hlast : (n - 1 - k) / 8 = bytes.length := by omega
        have hrem : (n - 1 - k) % 8 = 8 - 1 - k := by omega
        have hin : k < n := by omega
        rw [getLsbD_leWord (by omega), hlast, hrem]
        simp [hlow, hin, Nat.not_le.mpr hlow]
      · have hout : ¬ k < 8 := Nat.not_lt.mpr hhigh
        rcases Nat.lt_or_ge k n with hin | hge
        · have hindex : 8 * bytes.length - 1 - (k - 8) = n - 1 - k := by omega
          have hbyte : (n - 1 - k) / 8 < bytes.length := by omega
          have hshort : k - 8 < 8 * bytes.length := by omega
          rw [getLsbD_leWord (by omega), getLsbD_leWord (by omega), hindex,
            List.getD_append _ _ _ _ hbyte]
          simp [hin, hout, hhigh, hshort]
        · have hshort : ¬ k - 8 < 8 * bytes.length := by omega
          simp [Nat.not_lt.mpr hge, hout, hshort]

/-! ## The division -/

theorem poly_placed {m v i : ℕ} (x : BitVec m) (h : m + i ≤ v) :
    poly (x.setWidth v <<< i) = X ^ i * poly x := by
  have hout : x.setWidth v >>> (v - i) = 0#v := by
    apply BitVec.eq_of_getLsbD_eq
    intro j _
    rw [BitVec.getLsbD_ushiftRight, BitVec.getLsbD_setWidth, BitVec.getLsbD_zero,
      BitVec.getLsbD_of_ge x _ (by omega), Bool.and_false]
  rw [poly_shift_inside _ (by omega) hout, poly_setWidth x (by omega)]

/-- A round of the division keeps the class. -/
theorem residue_mod2 {v : ℕ} (k : ℕ) (t : BitVec v) (h : 32 + k ≤ v) :
    residue crcPoly (mod2 k t) = residue crcPoly t := by
  induction k generalizing t with
  | zero => rfl
  | succ k ih =>
      rw [mod2, ih _ (by omega)]
      split
      · rw [residue_xor, residue, residue, poly_placed crc32cPoly (by omega), map_mul,
          show AdjoinRoot.mk crcPoly (poly crc32cPoly) = 0 from AdjoinRoot.mk_self, mul_zero, add_zero]
      · rfl

/-- The division leaves the low 32 bits. -/
theorem mod2_high {v : ℕ} (k : ℕ) (t : BitVec v) (h : 32 + k ≤ v)
    (ht : ∀ j, 32 + k ≤ j → t.getLsbD j = false) (j : ℕ) (hj : 32 ≤ j) :
    (mod2 k t).getLsbD j = false := by
  induction k generalizing t with
  | zero => exact ht j hj
  | succ k ih =>
      rw [mod2]
      apply ih _ (by omega)
      intro i hi
      split
      · rename_i hbit
        rw [BitVec.getLsbD_xor, BitVec.getLsbD_shiftLeft, BitVec.getLsbD_setWidth]
        rcases Nat.eq_or_lt_of_le hi with rfl | hlt
        · have hin : 32 + k < v := by omega
          have hlead : crc32cPoly.getLsbD 32 = true := by decide
          have hindex : 32 + k - k = 32 := by omega
          rw [hbit, hindex, hlead]
          simp [hin, show 32 < v by omega]
        · rw [ht i (by omega), BitVec.getLsbD_of_ge crc32cPoly _ (by omega), Bool.and_false,
            Bool.and_false, Bool.false_xor]
      · rename_i hbit
        rcases Nat.eq_or_lt_of_le hi with rfl | hlt
        · exact Bool.eq_false_iff.mpr hbit
        · exact ht i (by omega)

/-- The instruction on reflections: the source behind the register. -/
theorem reflected_mmCrc32 {n : ℕ} (c : BitVec 32) (w : BitVec n) :
    reflected (mmCrc32 c w) = root ^ n * reflected c + root ^ 32 * reflected w := by
  have hsource : poly (w.reverse.setWidth (n + 32) <<< 32) = X ^ 32 * poly w.reverse :=
    poly_placed w.reverse (Nat.le_refl _)
  have hregister : poly (c.reverse.setWidth (n + 32) <<< n) = X ^ n * poly c.reverse :=
    poly_placed c.reverse (by omega)
  have hnarrow (t : BitVec (n + 32)) : poly ((mod2 n t).setWidth 32) = poly (mod2 n t) := by
    ext j
    rw [poly_coeff, poly_coeff, BitVec.getLsbD_setWidth]
    rcases Nat.lt_or_ge j 32 with hlow | hhigh
    · rw [decide_eq_true hlow, Bool.true_and]
    · rw [decide_eq_false (Nat.not_lt.mpr hhigh), Bool.false_and,
        mod2_high n t (by omega) (fun i hi => BitVec.getLsbD_of_ge t i (by omega)) j hhigh]
  rw [mmCrc32, reflected, BitVec.reverse_reverse_eq, residue, hnarrow]
  refine (residue_mod2 n _ (by omega)).trans ?_
  rw [residue_xor, residue, residue, hsource, hregister, map_mul, map_mul, mk_X_pow, mk_X_pow,
    add_comm]
  rfl

/-- The instruction takes a word as the register takes its bytes. -/
theorem mmCrc32_leWord {n : ℕ} (c : BitVec 32) (bytes : List UInt8) (hn : n = 8 * bytes.length) :
    mmCrc32 c (leWord n bytes) = crcBytes c bytes := by
  apply reflected_injective
  rw [reflected_mmCrc32, reflected_crcBytes, hn, reflected, reflected, residue, residue,
    poly_reverse_leWord bytes rfl]

/-! ## The portable words -/

theorem leByte_append_zero {n : ℕ} (x : BitVec n) (b : BitVec 8) : leByte (x ++ b) 0 = b := by
  apply BitVec.eq_of_getLsbD_eq
  intro j hj
  simp [leByte, BitVec.getLsbD_append, hj]

theorem leByte_append_succ {n : ℕ} (x : BitVec n) (b : BitVec 8) (i : ℕ) :
    leByte (x ++ b) (i + 1) = leByte x i := by
  apply BitVec.eq_of_getLsbD_eq
  intro j hj
  have hout : ¬ 8 * (i + 1) + j < 8 := by omega
  have hindex : 8 * (i + 1) + j - 8 = 8 * i + j := by omega
  simp [leByte, BitVec.getLsbD_append, hj, hout, hindex]

theorem leByte_self (b : BitVec 8) : leByte b 0 = b := by
  apply BitVec.eq_of_getLsbD_eq
  intro j hj
  simp [leByte, hj]

theorem portableU16_append (c : BitVec 32) (b₀ b₁ : BitVec 8) :
    portableU16 c (b₁ ++ b₀) = crc8 (crc8 c b₀) b₁ := by
  rw [portableU16, leByte_append_zero, leByte_append_succ b₁ b₀ 0, leByte_self]

theorem portableU32_append (c : BitVec 32) (b₀ b₁ b₂ b₃ : BitVec 8) :
    portableU32 c (b₃ ++ b₂ ++ b₁ ++ b₀) = crc8 (crc8 (crc8 (crc8 c b₀) b₁) b₂) b₃ := by
  rw [portableU32, portableU16_append, portableU16_append, leByte_append_zero,
    leByte_append_succ _ b₀ 0, leByte_append_succ _ b₀ 1, leByte_append_succ _ b₀ 2,
    leByte_append_zero, leByte_append_succ _ b₁ 0, leByte_append_succ _ b₁ 1, leByte_append_zero,
    leByte_append_succ _ b₂ 0, leByte_self]

theorem portableU64_bytes (c : BitVec 32) (w : BitVec 64) :
    portableU64 c w = ((List.range 8).map (leByte w)).foldl crc8 c := by
  rw [portableU64, portableU32_append, portableU32_append]
  rfl

theorem portableU32_bytes (c : BitVec 32) (w : BitVec 32) :
    portableU32 c w = ((List.range 4).map (leByte w)).foldl crc8 c := by
  rw [portableU32, portableU16_append, portableU16_append]
  rfl

theorem portableU16_bytes (c : BitVec 32) (w : BitVec 16) :
    portableU16 c w = ((List.range 2).map (leByte w)).foldl crc8 c := rfl

/-- The register behind the bytes of a word. -/
theorem crcBytes_word {k n : ℕ} (c : BitVec 32) (bytes : List UInt8) (hlen : bytes.length = k)
    (hn : n = 8 * k) :
    ((List.range k).map (leByte (leWord n bytes))).foldl crc8 c = crcBytes c bytes := by
  have hbytes : (List.range k).map (leByte (leWord n bytes)) = bytes.map (·.toBitVec) := by
    apply List.ext_getElem
    · rw [List.length_map, List.length_map, List.length_range, hlen]
    · intro i hi _
      rw [List.length_map, List.length_range] at hi
      have hget : bytes.getD i 0 = bytes[i] := List.getD_eq_getElem _ _ _
      rw [List.getElem_map, List.getElem_range, List.getElem_map, leByte_leWord (by omega), hget]
  rw [hbytes, List.foldl_map]
  rfl

/-! ## The kernels on either target -/

section Targets

variable (x86 : Bool) (c : BitVec 32) (bytes : List UInt8)

theorem crc32cU64_leWord (h : bytes.length = 8) :
    crc32cU64 x86 c (leWord 64 bytes) = crcBytes c bytes := by
  cases x86 with
  | true =>
      rw [crc32cU64, if_pos rfl, mmCrc32U64, BitVec.setWidth_setWidth_of_le _ (by decide),
        BitVec.setWidth_setWidth_of_le _ (by decide), BitVec.setWidth_eq, BitVec.setWidth_eq]
      exact mmCrc32_leWord c bytes (by rw [h])
  | false => exact (portableU64_bytes c _).trans (crcBytes_word c bytes h rfl)

theorem crc32cU32_leWord (h : bytes.length = 4) :
    crc32cU32 x86 c (leWord 32 bytes) = crcBytes c bytes := by
  cases x86 with
  | true => exact mmCrc32_leWord c bytes (by rw [h])
  | false => exact (portableU32_bytes c _).trans (crcBytes_word c bytes h rfl)

theorem crc32cU16_leWord (h : bytes.length = 2) :
    crc32cU16 x86 c (leWord 16 bytes) = crcBytes c bytes := by
  cases x86 with
  | true => exact mmCrc32_leWord c bytes (by rw [h])
  | false => exact (portableU16_bytes c _).trans (crcBytes_word c bytes h rfl)

theorem crc32cU8_byte (b : UInt8) : crc32cU8 x86 c b.toBitVec = crcBytes c [b] := by
  cases x86 with
  | true =>
      have hword : leWord 8 [b] = b.toBitVec := by
        apply BitVec.eq_of_toNat_eq
        simp [leWord, fromLeBytes]
      rw [← hword]
      exact mmCrc32_leWord c [b] rfl
  | false => rfl

end Targets

/-- The instructions and the portable forms agree on every word. -/
theorem crc32cU64_agree (c : BitVec 32) (w : BitVec 64) :
    crc32cU64 true c w = crc32cU64 false c w := by
  rw [← leWord_leByte 8 w, crc32cU64_leWord true c _ (by simp), crc32cU64_leWord false c _ (by simp)]

theorem crc32cU32_agree (c : BitVec 32) (w : BitVec 32) :
    crc32cU32 true c w = crc32cU32 false c w := by
  rw [← leWord_leByte 4 w, crc32cU32_leWord true c _ (by simp), crc32cU32_leWord false c _ (by simp)]

theorem crc32cU16_agree (c : BitVec 32) (w : BitVec 16) :
    crc32cU16 true c w = crc32cU16 false c w := by
  rw [← leWord_leByte 2 w, crc32cU16_leWord true c _ (by simp), crc32cU16_leWord false c _ (by simp)]

theorem crc32cU8_agree (c : BitVec 32) (w : BitVec 8) :
    crc32cU8 true c w = crc32cU8 false c w :=
  (crc32cU8_byte true c ⟨w⟩).trans (crc32cU8_byte false c ⟨w⟩).symm

end HftProj.Testkit.CrcRegister
