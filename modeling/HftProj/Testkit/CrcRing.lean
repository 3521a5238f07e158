import HftProj.Testkit.SpanHash

/-!
# The ring of the frame checksum

Products of two 32-bit words are reduced by a Barrett sequence: the quotient by the modulus of
degree 32 is read off the product of the high part with a truncated reciprocal. The sequence over
128-bit registers and the one over shifts and masks return the remainder.
-/

namespace HftProj.Testkit.CrcRing

open HftProj.Lib
open Polynomial
open SpanField SpanHash

/-! ## The product -/

/-- `VM`: the modulus of degree 32. -/
def vm : BitVec 64 := 0x105EC76F1#64

/-- `VMU`: the quotient of the 88th power by the modulus. -/
def vmu : BitVec 64 := 0x0105FD79BDABA560#64

/-- `_mm_srli_si128`. -/
def srliSi128 (a : BitVec 128) (bytes : ℕ) : BitVec 128 := a >>> (8 * bytes)

/-- `clmul_reduce_mod_vm_pcl`. -/
def clmulReduceModVmPcl (a b : BitVec 64) : BitVec 64 :=
  let va := loadu a 0#64
  let vb := loadu b 0#64
  let prod := mmClmulepi64 va vb 0x00#8
  let x := srliSi128 prod 4
  let p := mmClmulepi64 x (loadu vmu 0#64) 0x00#8
  let qh := srliSi128 p 7
  let qvm := mmClmulepi64 qh (loadu vm 0#64) 0x00#8
  let r := prod ^^^ qvm
  let corr := srliSi128 r 4
  let out := r ^^^ mmClmulepi64 corr (loadu vm 0#64) 0x00#8
  (out.setWidth 32).setWidth 64

/-- `clmul128`. -/
def clmul128 (a b : BitVec 128) : BitVec 128 := ShiftXor.loop 128 0#128 a b

/-- The mask of the low qword. -/
def mask64 : BitVec 128 := 0xFFFFFFFFFFFFFFFF#128

/-- `clmul_reduce_mod_vm_sw`. -/
def clmulReduceModVmSw (a b : BitVec 64) : BitVec 64 :=
  let prod := ShiftXor.loop 64 0#128 (a.setWidth 128) b
  let x := prod >>> 32 &&& mask64
  let p := ShiftXor.loop 128 0#128 x (vmu.setWidth 128)
  let qh := p >>> 56 &&& mask64
  let r := prod ^^^ clmul128 qh (vm.setWidth 128)
  let corr := r >>> 32 &&& mask64
  (r ^^^ clmul128 corr (vm.setWidth 128)).setWidth 64 &&& 0xFFFFFFFF#64

/-- `clmul_reduce_mod_vm` on either target. -/
def clmulReduceModVm (x86 : Bool) (a b : BitVec 64) : BitVec 64 :=
  if x86 then clmulReduceModVmPcl a b else clmulReduceModVmSw a b

/-! ## The modulus -/

/-- The modulus of the checksum ring. -/
noncomputable def crcVm : (ZMod 2)[X] := poly vm

/-- `VM` without its leading term. -/
def vmLow : BitVec 32 := 0x05EC76F1#32

theorem crcVm_eq : crcVm = X ^ 32 + poly vmLow := by
  have hbits : vm = 1#64 <<< 32 ^^^ vmLow.setWidth 64 := by decide
  rw [crcVm, hbits, poly_xor, poly_twoPow (by decide), poly_setWidth _ (by decide)]

theorem crcVm_monic : crcVm.Monic := by
  rw [crcVm_eq]
  exact monic_X_pow_add (poly_degree_lt vmLow)

theorem crcVm_degree : crcVm.degree = (32 : ℕ) := by
  rw [crcVm_eq, degree_add_eq_left_of_degree_lt, degree_X_pow]
  rw [degree_X_pow]
  exact poly_degree_lt vmLow

/-- What the truncated reciprocal lacks. -/
def vmuError : BitVec 32 := 0xA9A3F760#32

theorem vmu_reciprocal : crcVm * poly vmu = X ^ 88 + poly vmuError := by
  have hproduct : clmulepi64 vm vmu = 1#128 <<< 88 ^^^ vmuError.setWidth 128 := by decide +kernel
  rw [crcVm, ← clmulepi64_poly, hproduct, poly_xor, poly_twoPow (by decide),
    poly_setWidth _ (by decide)]

/-! ## The estimate of the quotient -/

/-- The quotient estimate is exact: what it leaves has a degree below the modulus. -/
theorem barrett_exact {p x lo q pl : (ZMod 2)[X]} (hp : p = lo + X ^ 32 * x)
    (hlo : lo.natDegree ≤ 31) (hx : x.natDegree ≤ 55) (hq : x * poly vmu = pl + X ^ 56 * q)
    (hpl : pl.natDegree ≤ 55) : (p - q * crcVm).natDegree ≤ 31 := by
  have hshift : X ^ 56 * (p - q * crcVm) = X ^ 56 * lo + (pl * crcVm - x * poly vmuError) := by
    rw [hp]
    linear_combination crcVm * hq - x * vmu_reciprocal
  have hpow : (X ^ 56 * lo).natDegree ≤ 87 :=
    natDegree_mul_le.trans (Nat.add_le_add (natDegree_X_pow_le 56) hlo)
  have hrest : (pl * crcVm).natDegree ≤ 87 :=
    natDegree_mul_le.trans (Nat.add_le_add hpl (natDegree_le_of_degree_le crcVm_degree.le))
  have herror : (x * poly vmuError).natDegree ≤ 87 :=
    (natDegree_mul_le.trans (Nat.add_le_add hx (poly_natDegree_le vmuError))).trans (by decide)
  have hsum : (X ^ 56 * (p - q * crcVm)).natDegree ≤ 87 := by
    rw [hshift]
    exact natDegree_add_le_of_degree_le hpow (natDegree_sub_le_of_le hrest herror)
  rw [natDegree_le_iff_coeff_eq_zero] at hsum ⊢
  intro n hn
  rw [← coeff_X_pow_mul _ 56 n]
  exact hsum _ (by omega)

/-- What is left is the remainder. -/
theorem remainder_of_small {p q : (ZMod 2)[X]} (h : (p - q * crcVm).natDegree ≤ 31) :
    p - q * crcVm = p %ₘ crcVm := by
  have hdegree : (p - q * crcVm).degree < crcVm.degree := by
    rw [crcVm_degree]
    exact (degree_le_of_natDegree_le h).trans_lt (by decide)
  exact (div_modByMonic_unique q _ crcVm_monic ⟨by ring, hdegree⟩).2.symm

/-! ## The sequence -/

theorem high_lt {w : BitVec 128} {k n : ℕ} (h : w.toNat < 2 ^ (k + n)) :
    (low64 (w >>> k)).toNat < 2 ^ n := by
  rw [low64, BitVec.toNat_setWidth, BitVec.toNat_ushiftRight, Nat.shiftRight_eq_div_pow]
  apply (Nat.mod_le _ _).trans_lt
  exact Nat.div_lt_of_lt_mul (by rwa [← pow_add])

/-- The high part of a product, in a word that holds it. -/
theorem split_high {w : BitVec 128} {k : ℕ} (h : w.toNat < 2 ^ (k + 64)) :
    poly w = poly (w.setWidth k) + X ^ k * poly (low64 (w >>> k)) := by
  have hhigh : (w >>> k).toNat < 2 ^ 64 := by
    rw [BitVec.toNat_ushiftRight, Nat.shiftRight_eq_div_pow]
    exact Nat.div_lt_of_lt_mul (by rwa [← pow_add])
  rw [low64, poly_narrow _ hhigh]
  exact poly_split w k

theorem vmu_natDegree : (poly vmu).natDegree ≤ 56 :=
  (toNat_lt_iff_natDegree vmu).mp (by decide)

/-- The reduction of a product of two words, whatever multiplies: what is left is the remainder
and has nothing above its 32 bits. -/
theorem barrett_words {a b : BitVec 64} {prod p qvm : BitVec 128} (ha : a.toNat < 2 ^ 32)
    (hb : b.toNat < 2 ^ 32) (hprod : poly prod = poly a * poly b)
    (hp : poly p = poly (low64 (prod >>> 32)) * poly vmu)
    (hqvm : poly qvm = poly (low64 (p >>> 56)) * crcVm) :
    poly (prod ^^^ qvm) = (poly a * poly b) %ₘ crcVm ∧ (prod ^^^ qvm).toNat < 2 ^ 32 := by
  have hprodSize : prod.toNat < 2 ^ (32 + 31) := by
    rw [toNat_lt_iff_natDegree, hprod]
    exact (natDegree_mul_le.trans (Nat.add_le_add ((toNat_lt_iff_natDegree a (k := 31)).mp ha)
      ((toNat_lt_iff_natDegree b (k := 31)).mp hb))).trans (by decide)
  have hx : (poly (low64 (prod >>> 32))).natDegree ≤ 30 :=
    (toNat_lt_iff_natDegree _).mp (high_lt hprodSize)
  have hpSize : p.toNat < 2 ^ (56 + 31) := by
    rw [toNat_lt_iff_natDegree, hp]
    exact (natDegree_mul_le.trans (Nat.add_le_add hx vmu_natDegree)).trans (by decide)
  have hleft : (poly prod - poly (low64 (p >>> 56)) * crcVm).natDegree ≤ 31 :=
    barrett_exact (split_high (hprodSize.trans (by decide))) (poly_natDegree_le _)
      (hx.trans (by decide)) (hp.symm.trans (split_high (hpSize.trans (by decide))))
      (poly_natDegree_le _)
  have hxor : poly (prod ^^^ qvm) = poly prod - poly (low64 (p >>> 56)) * crcVm := by
    rw [poly_xor, hqvm, ← CharTwo.sub_eq_add]
  rw [toNat_lt_iff_natDegree, hxor, ← hprod]
  exact ⟨remainder_of_small hleft, hleft⟩

/-- Nothing is left to correct, and the low 32 bits are all of the remainder. -/
theorem no_correction {r c : BitVec 128} (hr : r.toNat < 2 ^ 32)
    (hc : poly c = poly (low64 (r >>> 32)) * crcVm) : r ^^^ c = r := by
  have hhigh : low64 (r >>> 32) = 0#64 := by
    apply BitVec.eq_of_toNat_eq
    exact Nat.lt_one_iff.mp (high_lt (n := 0) hr)
  have hzero : c = 0#128 := by
    apply poly_injective
    rw [hc, hhigh, poly_zero, poly_zero, zero_mul]
  rw [hzero, BitVec.xor_zero]

theorem mmClmulepi64_low (a b : BitVec 128) :
    mmClmulepi64 a b 0x00#8 = clmulepi64 (low64 a) (low64 b) := by
  rw [mmClmulepi64, if_neg (by decide), if_neg (by decide)]

/-- A mask of the low bits cuts the word. -/
theorem and_lowOnes {v : ℕ} (k : ℕ) (w : BitVec v) :
    w &&& (BitVec.allOnes k).setWidth v = (w.setWidth k).setWidth v := by
  apply BitVec.eq_of_getLsbD_eq
  intro i hi
  rw [BitVec.getLsbD_and, BitVec.getLsbD_setWidth, BitVec.getLsbD_allOnes,
    BitVec.getLsbD_setWidth, BitVec.getLsbD_setWidth, Bool.and_comm, Bool.and_assoc]

theorem low_mask (w : BitVec 128) : w &&& mask64 = (low64 w).setWidth 128 := by
  have hmask : mask64 = (BitVec.allOnes 64).setWidth 128 := by decide
  rw [hmask, and_lowOnes, low64]

/-- A product by shifts and XORs whose second operand has at most 64 bits. -/
theorem poly_shifted (fuel : ℕ) (a : BitVec 64) {w : ℕ} (b : BitVec w) (hfuel : 64 ≤ fuel)
    (hb : b.toNat < 2 ^ 64) :
    poly (ShiftXor.loop fuel 0#128 (a.setWidth 128) b) = poly a * poly b := by
  have ha : (a.setWidth 128).toNat < 2 ^ 64 := by
    rw [BitVec.toNat_setWidth_of_le (by decide)]
    exact a.isLt
  rw [ShiftXor.poly_loop fuel _ _ b ha hb hfuel (Nat.le_refl 128), poly_zero, zero_add,
    poly_setWidth a (by decide)]

section Product

variable {a b : BitVec 64}

theorem poly_pcl (ha : a.toNat < 2 ^ 32) (hb : b.toNat < 2 ^ 32) :
    poly (clmulReduceModVmPcl a b) = (poly a * poly b) %ₘ crcVm := by
  obtain ⟨hpoly, hsize⟩ := barrett_words ha hb (clmulepi64_poly a b) (clmulepi64_poly _ vmu)
    (clmulepi64_poly _ vm)
  simp only [clmulReduceModVmPcl, mmClmulepi64_low, low64_loadu, srliSi128, Nat.reduceMul]
  rw [no_correction hsize (clmulepi64_poly _ vm), poly_setWidth _ (by decide),
    poly_narrow _ hsize, hpoly]

theorem poly_sw (ha : a.toNat < 2 ^ 32) (hb : b.toNat < 2 ^ 32) :
    poly (clmulReduceModVmSw a b) = (poly a * poly b) %ₘ crcVm := by
  have hvm (c : BitVec 64) : poly (clmul128 (c.setWidth 128) (vm.setWidth 128)) =
      poly c * crcVm := by
    rw [clmul128, poly_shifted 128 c _ (by decide) (by decide), poly_setWidth vm (by decide), crcVm]
  have hvmu (c : BitVec 64) :
      poly (ShiftXor.loop 128 0#128 (c.setWidth 128) (vmu.setWidth 128)) = poly c * poly vmu := by
    rw [poly_shifted 128 c _ (by decide) (by decide), poly_setWidth vmu (by decide)]
  obtain ⟨hpoly, hsize⟩ := barrett_words ha hb (poly_shifted 64 a b (by decide) b.isLt) (hvmu _)
    (hvm _)
  simp only [clmulReduceModVmSw, low_mask]
  have hmask : 0xFFFFFFFF#64 = (BitVec.allOnes 32).setWidth 64 := by decide
  rw [no_correction hsize (hvm _), hmask, and_lowOnes, poly_setWidth _ (by decide),
    BitVec.setWidth_setWidth_of_le _ (by decide), poly_narrow _ hsize, hpoly]

/-- Either target computes the remainder. -/
theorem poly_product (x86 : Bool) (ha : a.toNat < 2 ^ 32) (hb : b.toNat < 2 ^ 32) :
    poly (clmulReduceModVm x86 a b) = (poly a * poly b) %ₘ crcVm := by
  rw [clmulReduceModVm]
  split
  · exact poly_pcl ha hb
  · exact poly_sw ha hb

theorem product_lt (x86 : Bool) (a b : BitVec 64) : (clmulReduceModVm x86 a b).toNat < 2 ^ 32 := by
  rw [clmulReduceModVm]
  split
  · rw [clmulReduceModVmPcl, BitVec.toNat_setWidth_of_le (by decide)]
    exact BitVec.isLt _
  · have hmask : 0xFFFFFFFF#64 = (BitVec.allOnes 32).setWidth 64 := by decide
    simp only [clmulReduceModVmSw]
    rw [hmask, and_lowOnes, BitVec.toNat_setWidth_of_le (by decide)]
    exact BitVec.isLt _

end Product

/-! ## The ring -/

/-- The class of a word in the checksum ring. -/
noncomputable def res {w : ℕ} (a : BitVec w) : AdjoinRoot crcVm := residue crcVm a

@[simp]
theorem res_xor {w : ℕ} (a b : BitVec w) : res (a ^^^ b) = res a + res b := residue_xor

@[simp]
theorem res_one {w : ℕ} (h : 0 < w) : res 1#w = 1 := residue_one h

theorem res_narrow {w : ℕ} {a : BitVec w} (h : a.toNat < 2 ^ 32) : res (a.setWidth 32) = res a := by
  rw [res, residue, poly_narrow a h, res, residue]

/-- Words of 32 bits are determined by their classes. -/
theorem res_eq {w : ℕ} {a b : BitVec w} (ha : a.toNat < 2 ^ 32) (hb : b.toNat < 2 ^ 32)
    (h : res a = res b) : a = b := by
  have hlow : a.setWidth 32 = b.setWidth 32 := by
    apply residue_injective crcVm_monic crcVm_degree
    exact (res_narrow ha).trans (h.trans (res_narrow hb).symm)
  apply poly_injective
  rw [← poly_narrow a ha, ← poly_narrow b hb, hlow]

/-- The product of words is the product of their classes. -/
theorem res_product (x86 : Bool) {a b : BitVec 64} (ha : a.toNat < 2 ^ 32)
    (hb : b.toNat < 2 ^ 32) : res (clmulReduceModVm x86 a b) = res a * res b := by
  have hpoly := poly_product x86 ha hb
  rw [modByMonic_eq_sub_mul_div] at hpoly
  rw [res, residue, hpoly, map_sub, map_mul, map_mul, AdjoinRoot.mk_self, zero_mul, sub_zero]
  rfl

/-- Either target returns the remainder of the product, and the words below `2 ^ 32` are a
commutative ring under XOR and it. -/
theorem crc_ring_product (x86 : Bool) (a b c : BitVec 64) (ha : a.toNat < 2 ^ 32)
    (hb : b.toNat < 2 ^ 32) (hc : c.toNat < 2 ^ 32) :
    poly (clmulReduceModVm x86 a b) = (poly a * poly b) %ₘ poly vm ∧
      clmulReduceModVmPcl a b = clmulReduceModVmSw a b ∧
      clmulReduceModVm x86 a b = clmulReduceModVm x86 b a ∧
      clmulReduceModVm x86 (clmulReduceModVm x86 a b) c =
        clmulReduceModVm x86 a (clmulReduceModVm x86 b c) ∧
      clmulReduceModVm x86 a (b ^^^ c) =
        clmulReduceModVm x86 a b ^^^ clmulReduceModVm x86 a c ∧
      clmulReduceModVm x86 a 1#64 = a := by
  have hlt (a b : BitVec 64) := product_lt x86 a b
  have hone : (1#64).toNat < 2 ^ 32 := by decide
  refine ⟨poly_product x86 ha hb, ?_, ?_, ?_, ?_, ?_⟩
  · apply poly_injective
    rw [poly_pcl ha hb, poly_sw ha hb]
  · apply res_eq (hlt _ _) (hlt _ _)
    rw [res_product x86 ha hb, res_product x86 hb ha, mul_comm]
  · apply res_eq (hlt _ _) (hlt _ _)
    rw [res_product x86 (hlt _ _) hc, res_product x86 ha hb, res_product x86 ha (hlt _ _),
      res_product x86 hb hc, mul_assoc]
  · have hsum : (b ^^^ c).toNat < 2 ^ 32 := by
      rw [BitVec.toNat_xor]
      exact Nat.xor_lt_two_pow hb hc
    apply res_eq (hlt _ _)
    · rw [BitVec.toNat_xor]
      exact Nat.xor_lt_two_pow (hlt _ _) (hlt _ _)
    · rw [res_xor, res_product x86 ha hsum, res_product x86 ha hb, res_product x86 ha hc, res_xor,
        mul_add]
  · apply res_eq (hlt _ _) ha
    rw [res_product x86 ha hone, res_one (by decide), mul_one]

theorem crc_ring_product_tables :
    clmulReduceModVm true 0xF20C0DFE#64 0xF26B8303#64 =
      clmulReduceModVm true 0xF26B8303#64 0xF20C0DFE#64 := by
  obtain ⟨-, -, hcomm, -⟩ := crc_ring_product true 0xF20C0DFE#64 0xF26B8303#64 1#64 (by decide)
    (by decide) (by decide)
  exact hcomm

end HftProj.Testkit.CrcRing
