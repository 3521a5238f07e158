import HftProj.Testkit.CrcRing
import HftProj.Testkit.FrameTag
import HftProj.Testkit.SpanLanes

/-!
# Spans out of cumulative registers

A register that goes on over a span is the register of the span and the register before it times a
power of the inverse variable. The power for a length is composed of two tables, and a span's
register is projected out of the registers behind and before it, alone or eight lanes at a time.
-/

namespace HftProj.Testkit.AffineSpan

open HftProj.Lib
open Polynomial
open SpanField hiding res res_xor
open SpanHash CrcRing CrcRegister FrameTag

/-! ## The tables -/

/-- `AFFINE_POW_128B_TABLE`. -/
def affinePow128bTable : List (BitVec 64) :=
  [0xF20C0DFE#64, 0x3DA6D0CB#64, 0x1C291D04#64, 0x740EEF02#64, 0x083A6EEC#64, 0xC49F4F67#64,
   0x2AD91C30#64, 0x6992CEA2#64, 0x7E908048#64, 0x1B3D8F29#64, 0xF1D0F55E#64, 0xA87AB8A8#64,
   0x8462D800#64, 0x71D111A8#64, 0xFFD852C6#64, 0xDCB17AA4#64, 0xF37C5AEE#64, 0x6051D5A2#64,
   0x18B0D4FF#64, 0x21F3D99C#64, 0x8F158014#64, 0xA00457F7#64, 0x8D6D2C43#64, 0x00AC29CF#64,
   0xE9ADF796#64, 0x96638B34#64, 0xE0E9F351#64, 0x9AF01F2D#64, 0x2CFF42CF#64, 0x88F25A3A#64,
   0x4E36F0B0#64, 0xBD6F81F8#64, 0x91C9BD4B#64, 0x885F087B#64, 0x4C144932#64, 0x52148F02#64,
   0xA3C6F37A#64, 0xD7C0557F#64, 0x63DED06A#64, 0x4D56973C#64, 0x9669C9DF#64, 0xE417F38A#64,
   0x4B9E0F71#64, 0xD104B8FC#64, 0x5B397730#64, 0xE78EB416#64, 0x61FF0E01#64, 0x8D96551C#64,
   0x0BF80DD2#64, 0x8821ABED#64, 0x6A45D2B2#64, 0xD8D26619#64, 0xDE87806C#64, 0x14338754#64,
   0x5BD2011F#64, 0xDD07448E#64, 0xDDE8F5B9#64, 0xA3E3E02C#64, 0xD73C7BEA#64, 0x80FF0093#64,
   0x8FE4C34D#64, 0xDF99FC11#64, 0x6C23E841#64, 0xFE314258#64, 0x0D8373A0#64, 0x19E3635E#64,
   0x29F268B4#64, 0x1DC0632A#64, 0x1614F396#64, 0x9E2993D3#64, 0x6BEBD73C#64, 0x63AE91E6#64,
   0xF8C9DA7A#64, 0x945A19C1#64, 0xEE8213B7#64, 0x93781DC7#64, 0xCCC4A1B9#64, 0xA2C2D971#64,
   0x1CAD4452#64, 0x74922601#64, 0xC55F7EAB#64, 0xA1962329#64, 0x2D370749#64, 0x397D84A1#64,
   0x79113270#64, 0xBC817803#64, 0x88EB3C07#64, 0x6E4CB630#64, 0x71971D5C#64, 0xF33B8BC6#64,
   0x9FB3BBC0#64, 0x6EF22B23#64, 0xCE2DF768#64, 0xE53A4FC7#64, 0xBE60A91A#64, 0x1DFA0A15#64,
   0x8EC52396#64, 0x0E766B11#64, 0x475846A4#64, 0xB2A3DFA6#64, 0xDC1A160C#64, 0x79AFDF1C#64,
   0x07AC6E46#64, 0x15F85253#64, 0x1BEC24DD#64, 0x4C36CD5B#64, 0xE0A22E29#64, 0x7C2B6ED9#64,
   0x06FF88FD#64, 0xF7317CF0#64, 0x61B6E40B#64, 0xDE8A97F8#64, 0x88F61445#64, 0xD4520E9E#64,
   0x0C592BD5#64, 0x38EDFAF3#64, 0x72CBFCDB#64, 0x348331A5#64, 0xC3977C19#64, 0xDAFAEA7C#64,
   0x73DB4C04#64, 0x72675CE8#64, 0x3EC2FF83#64, 0xE8C7A017#64, 0xCF4BFAEF#64, 0x6BDE1AC7#64,
   0xAE1175C2#64, 0xF7506984#64]

/-- `AFFINE_POW_BYTE_TABLE`. -/
def affinePowByteTable : List (BitVec 64) :=
  [0x00000001#64, 0xF26B8303#64, 0x13A29877#64, 0xA541927E#64, 0xDD45AAB8#64, 0x38116FAC#64,
   0xEF306B19#64, 0x68032CC8#64, 0x493C7D27#64, 0xF43ED648#64, 0xCB567BA5#64, 0x9771F7C1#64,
   0x3171D430#64, 0x30D23865#64, 0x54075546#64, 0x678EFD01#64]

/-- `affine_span_const`; behind the tables the source has no value. -/
def affineSpanConst (x86 : Bool) (spanLen : ℕ) : BitVec 64 :=
  let k := spanLen / 16
  let r := spanLen % 16
  if k = 0 then affinePowByteTable.getD r 0#64
  else
    let t128 := affinePow128bTable.getD (k - 1) 0#64
    let tr := affinePowByteTable.getD r 0#64
    clmulReduceModVm x86 t128 tr

/-- `span_crc32c_affine_sub`. -/
def spanCrc32cAffineSub (x86 : Bool) (cumCrc prefixCrc : BitVec 32) (spanLen : ℕ) : BitVec 32 :=
  let cL := affineSpanConst x86 spanLen
  let shiftedPrefix := clmulReduceModVm x86 (prefixCrc.setWidth 64) cL
  cumCrc ^^^ shiftedPrefix.setWidth 32

/-! ## Eight lanes -/

/-- `_mm512_alignr_epi8`: in every lane of 128 bits the bytes of two registers, shifted down. -/
def alignrEpi8 (a b : Zmm) (bytes : ℕ) : Zmm := fun i =>
  let hi := loadu (a (Zmm.half false i)) (a (Zmm.half true i))
  let lo := loadu (b (Zmm.half false i)) (b (Zmm.half true i))
  let r := ((hi ++ lo) >>> (8 * bytes)).setWidth 128
  if i.val % 2 = 0 then low64 r else high64 r

/-- The plain Barrett sequence in every lane of 128 bits. -/
def barrettFields (p : Zmm) : Zmm :=
  let bvmu : Zmm := fun _ => vmu
  let bvm : Zmm := fun _ => vm
  let x := alignrEpi8 p p 4
  let pq := Zmm.clmulepi64 false x bvmu
  let qh := alignrEpi8 pq pq 7
  let r := Zmm.xor p (Zmm.clmulepi64 false qh bvm)
  Zmm.xor r (Zmm.clmulepi64 false (alignrEpi8 r r 4) bvm)

/-- Four of the lanes in the even words, the others masked out. -/
def spreadLanes (idx : Fin 8 → ℕ) (lanes : Fin 8 → BitVec 32) : Zmm :=
  Zmm.maskzMov 0x55 (Zmm.permutexvar idx fun j => (lanes j).setWidth 64)

/-- The low four lanes and the high four, a word apart. -/
def idxA : Fin 8 → ℕ := ![0, 0, 1, 0, 2, 0, 3, 0]

def idxB : Fin 8 → ℕ := ![4, 0, 5, 0, 6, 0, 7, 0]

/-- The lanes that `span_crc32c_8lane_affine_sub_vec` combines. -/
def projectVec (cumLanes prefixLanes : Fin 8 → BitVec 32) (cAdv : BitVec 64) : Fin 8 → BitVec 32 :=
  let bc : Zmm := fun _ => cAdv
  let bufa := barrettFields (Zmm.clmulepi64 false (spreadLanes idxA prefixLanes) bc)
  let bufb := barrettFields (Zmm.clmulepi64 false (spreadLanes idxB prefixLanes) bc)
  fun j => ((if j.val < 4 then bufa else bufb) (Fin.ofNat 8 (2 * (j.val % 4)))).setWidth 32 ^^^
    cumLanes j

/-- The lanes of the scalar fallback. -/
def projectScalar (x86 : Bool) (cumLanes prefixLanes : Fin 8 → BitVec 32) (cAdv : BitVec 64) :
    Fin 8 → BitVec 32 := fun j =>
  let p := clmulReduceModVm x86 ((prefixLanes j).setWidth 64) cAdv
  cumLanes j ^^^ p.setWidth 32

/-- `span_crc32c_8lane_affine_sub`; none where the source is unreachable. -/
def spanCrc32c8laneAffineSub (x86 vec : Bool) (mode : Mode)
    (cumLanes prefixLanes : Fin 8 → BitVec 32) (spanLen : ℕ) : Option (BitVec 64) :=
  let l8 := spanLen / 8
  let k := l8 / 16
  let r := l8 % 16
  let cAdv :=
    if k = 0 then affinePowByteTable.getD r 0#64
    else
      let t128 := affinePow128bTable.getD (k - 1) 0#64
      let tr := affinePowByteTable.getD r 0#64
      clmulReduceModVm x86 t128 tr
  if vec then
    if x86 then some (spanLaneCombine mode (projectVec cumLanes prefixLanes cAdv) spanLen)
    else none
  else some (spanLaneCombine mode (projectScalar x86 cumLanes prefixLanes cAdv) spanLen)

/-! ## Rounds divide by the variable -/

/-- The inverse of the variable. -/
noncomputable def inverse : AdjoinRoot crcVm := res crc32cPolyReflected

theorem root_mul_inverse : AdjoinRoot.root crcVm * inverse = 1 := by
  have hlow : vm.getLsbD 0 = true := by decide
  have hshift : vm >>> 1 = crc32cPolyReflected.setWidth 64 := by decide +kernel
  have hvm : poly vm = 1 + X * poly crc32cPolyReflected := by
    rw [poly_lowest vm, if_pos hlow, hshift, poly_setWidth _ (by decide)]
  have hproduct : X * poly crc32cPolyReflected = poly vm + 1 := by
    rw [hvm, add_right_comm, CharTwo.add_self_eq_zero, zero_add]
  have hclass := congrArg (AdjoinRoot.mk crcVm) hproduct
  rw [map_mul, AdjoinRoot.mk_X, map_add, map_one] at hclass
  refine hclass.trans ?_
  rw [show AdjoinRoot.mk crcVm (poly vm) = 0 from AdjoinRoot.mk_self, zero_add]

/-- A round divides the register by the variable. -/
theorem res_bitStep (c : BitVec 32) : res (bitStep c) = inverse * res c := by
  have hsplit : res c =
      (if c.getLsbD 0 then (1 : AdjoinRoot crcVm) else 0) + AdjoinRoot.root crcVm * res (c >>> 1) := by
    rw [res, residue, poly_lowest, map_add, map_mul, AdjoinRoot.mk_X]
    cases c.getLsbD 0 <;> simp [res, residue]
  have hrest : inverse * (AdjoinRoot.root crcVm * res (c >>> 1)) = res (c >>> 1) := by
    rw [← mul_assoc, mul_comm inverse, root_mul_inverse, one_mul]
  rw [hsplit, mul_add, hrest, bitStep]
  split
  · rename_i hbit
    rw [if_pos ((lowest_bit c).mp hbit), mul_one, res_xor, add_comm]
    rfl
  · rename_i hbit
    rw [if_neg (fun h => hbit ((lowest_bit c).mpr h)), mul_zero, zero_add]

theorem res_iterate (n : ℕ) (c : BitVec 32) : res (bitStep^[n] c) = inverse ^ n * res c := by
  induction n with
  | zero => rw [pow_zero, one_mul, Function.iterate_zero_apply]
  | succ n ih => rw [Function.iterate_succ_apply', res_bitStep, ih, pow_succ', mul_assoc]

theorem res_wide {w : ℕ} (b : BitVec w) (h : w ≤ 32) : res (b.setWidth 32) = res b := by
  rw [res, residue, poly_setWidth b h, res, residue]

theorem res_crc8 (c : BitVec 32) (b : BitVec 8) :
    res (crc8 c b) = inverse ^ 8 * (res c + res b) := by
  rw [crc8, res_iterate, res_xor, res_wide b (by decide)]

/-- A register goes on from where it starts as from zero, beside its start divided. -/
theorem res_crcBytes (c : BitVec 32) (bytes : List UInt8) :
    res (crcBytes c bytes) =
      inverse ^ (8 * bytes.length) * res c + res (crcBytes 0#32 bytes) := by
  induction bytes using List.reverseRecOn with
  | nil =>
      have hzero : res (crcBytes 0#32 []) = 0 := residue_zero
      rw [hzero, List.length_nil, Nat.mul_zero, pow_zero, one_mul, add_zero]
      rfl
  | append_singleton bytes b ih =>
      rw [crcBytes_snoc, crcBytes_snoc, res_crc8, res_crc8, ih, List.length_append,
        List.length_singleton]
      ring

/-! ## The tables hold the powers -/

/-- A round on the register's value. -/
def roundValue (c : ℕ) : ℕ := c / 2 ^^^ c % 2 * 0x82F63B78

theorem bitStep_value (c : BitVec 32) : (bitStep c).toNat = roundValue c.toNat := by
  have hlow : c &&& 1#32 ≠ 0#32 ↔ c.toNat % 2 = 1 := by
    rw [lowest_bit, BitVec.getLsbD, Nat.testBit_zero, decide_eq_true_iff]
  rw [bitStep, roundValue]
  split
  · rename_i hbit
    rw [hlow.mp hbit, one_mul, BitVec.toNat_xor, BitVec.toNat_ushiftRight, Nat.shiftRight_eq_div_pow,
      pow_one]
    rfl
  · rename_i hbit
    have heven : c.toNat % 2 = 0 := by
      rw [hlow] at hbit
      omega
    rw [heven, zero_mul, Nat.xor_zero, BitVec.toNat_ushiftRight, Nat.shiftRight_eq_div_pow, pow_one]

theorem iterate_value (n : ℕ) (c : BitVec 32) :
    (bitStep^[n] c).toNat = roundValue^[n] c.toNat := by
  induction n with
  | zero => rfl
  | succ n ih =>
      rw [Function.iterate_succ_apply', Function.iterate_succ_apply', bitStep_value, ih]

/-- The rounds by the bare operations on numbers, which the kernel computes in one step each. -/
@[grind =]
def bareRounds : ℕ → ℕ → ℕ
  | 0, c => c
  | n + 1, c => bareRounds n (Nat.xor (Nat.div c 2) (Nat.mul (Nat.mod c 2) 0x82F63B78))

theorem bareRounds_eq (n c : ℕ) : bareRounds n c = roundValue^[n] c := by
  induction n generalizing c with
  | zero => rfl
  | succ n ih =>
      rw [bareRounds, ih, Function.iterate_succ_apply]
      rfl

/-- A table whose entries are so many rounds apart. -/
abbrev Spaced (rounds : ℕ) (table : List (BitVec 64)) : Prop :=
  table.IsChain fun entry next => next.toNat = bareRounds rounds entry.toNat

theorem Spaced.step {rounds : ℕ} {table : List (BitVec 64)} (h : Spaced rounds table) {k : ℕ}
    (hk : k + 1 < table.length) :
    (table.getD (k + 1) 0#64).toNat = roundValue^[rounds] (table.getD k 0#64).toNat := by
  rw [List.getD_eq_getElem _ _ hk, List.getD_eq_getElem _ _ (Nat.lt_of_succ_lt hk),
    ← bareRounds_eq]
  exact h.getElem k hk

-- Along the lists, not by index: the kernel walks each table once.
theorem tables_spaced : Spaced 8 affinePowByteTable ∧ Spaced 128 (1#64 :: affinePow128bTable) := by
  decide +kernel

theorem table128b_step {k : ℕ} (hk : k < 128) : (affinePow128bTable.getD k 0#64).toNat =
    roundValue^[128] ((1#64 :: affinePow128bTable).getD k 0#64).toNat := by
  have hlen : affinePow128bTable.length = 128 := rfl
  have hstep := tables_spaced.2.step (k := k) (by rw [List.length_cons]; omega)
  rwa [List.getD_cons_succ] at hstep

/-- A word below `2 ^ 32` that stands for a power of the inverse. -/
def IsPower (w : BitVec 64) (n : ℕ) : Prop := w.toNat < 2 ^ 32 ∧ res w = inverse ^ n

theorem IsPower.rounds {w w' : BitVec 64} {m n : ℕ} (h : IsPower w m)
    (hnext : w'.toNat = roundValue^[n] w.toNat) : IsPower w' (m + n) := by
  obtain ⟨hsize, hres⟩ := h
  have hnarrow : (w.setWidth 32).toNat = w.toNat := by
    rw [BitVec.toNat_setWidth, Nat.mod_eq_of_lt hsize]
  have hvalue : w'.toNat = (bitStep^[n] (w.setWidth 32)).toNat := by
    rw [iterate_value, hnarrow, hnext]
  have hword : w' = (bitStep^[n] (w.setWidth 32)).setWidth 64 := by
    apply BitVec.eq_of_toNat_eq
    rw [hvalue, BitVec.toNat_setWidth_of_le (by decide)]
  refine ⟨hvalue ▸ BitVec.isLt _, ?_⟩
  calc
    res w' = res (bitStep^[n] (w.setWidth 32)) := by
      rw [hword, res, residue, poly_setWidth _ (by decide), res, residue]
    _ = inverse ^ (m + n) := by
      rw [res_iterate, res_narrow hsize, hres, ← pow_add, Nat.add_comm]

theorem isPower_byte {r : ℕ} (hr : r < 16) :
    IsPower (affinePowByteTable.getD r 0#64) (8 * r) := by
  induction r with
  | zero => exact ⟨by decide, res_one (by decide)⟩
  | succ r ih => exact (ih (by omega)).rounds (tables_spaced.1.step hr)

theorem isPower_128b {k : ℕ} (hk : k < 128) :
    IsPower (affinePow128bTable.getD k 0#64) (128 * (k + 1)) := by
  induction k with
  | zero =>
      have hone : IsPower 1#64 0 := ⟨by decide, res_one (by decide)⟩
      exact hone.rounds (table128b_step hk)
  | succ k ih =>
      have hstep := table128b_step hk
      rw [List.getD_cons_succ] at hstep
      exact (ih (by omega)).rounds hstep

/-- The composed constant is the power for its length. -/
theorem isPower_affineSpanConst (x86 : Bool) {spanLen : ℕ} (h : spanLen ≤ 2048) :
    IsPower (affineSpanConst x86 spanLen) (8 * spanLen) := by
  have hr : spanLen % 16 < 16 := Nat.mod_lt _ (by decide)
  simp only [affineSpanConst]
  split
  · rename_i hk
    have hlen : spanLen % 16 = spanLen := by omega
    rw [hlen] at hr ⊢
    exact isPower_byte hr
  · have hindex : spanLen / 16 - 1 < 128 := by omega
    obtain ⟨hsize₁, hres₁⟩ := isPower_128b hindex
    obtain ⟨hsize₂, hres₂⟩ := isPower_byte hr
    have hexponent : 128 * (spanLen / 16 - 1 + 1) + 8 * (spanLen % 16) = 8 * spanLen := by omega
    refine ⟨product_lt x86 _ _, ?_⟩
    rw [res_product x86 hsize₁ hsize₂, hres₁, hres₂, ← pow_add, hexponent]

/-! ## Projection -/

section Projection

variable (x86 : Bool)

theorem double_zero (x : AdjoinRoot crcVm) : x + x = 0 := by
  have hone : (1 : AdjoinRoot crcVm) + 1 = 0 := by
    rw [← map_one (AdjoinRoot.mk crcVm), ← map_add, CharTwo.add_self_eq_zero, map_zero]
  rw [← mul_one x, ← mul_add, hone, mul_zero]

/-- Behind two strings the register less the power of the first is the register of the second. -/
theorem project_append {w : BitVec 64} (s t : List UInt8) (hw : IsPower w (8 * t.length)) :
    crcBytes 0#32 (s ++ t) ^^^
        (clmulReduceModVm x86 ((crcBytes 0#32 s).setWidth 64) w).setWidth 32 =
      crcBytes 0#32 t := by
  have hsize : ((crcBytes 0#32 s).setWidth 64).toNat < 2 ^ 32 := by
    rw [BitVec.toNat_setWidth_of_le (by decide)]
    exact BitVec.isLt _
  have hclass : res ((crcBytes 0#32 s).setWidth 64) = res (crcBytes 0#32 s) := by
    rw [res, residue, poly_setWidth _ (by decide), res, residue]
  apply res_eq (BitVec.isLt _) (BitVec.isLt _)
  rw [res_xor, res_narrow (product_lt x86 _ _), res_product x86 hsize hw.1, hclass, hw.2,
    crcBytes_append, res_crcBytes (crcBytes 0#32 s)]
  linear_combination double_zero (inverse ^ (8 * t.length) * res (crcBytes 0#32 s))

theorem affineSub_append (s t : List UInt8) (h : t.length ≤ 2048) :
    spanCrc32cAffineSub x86 (crcBytes 0#32 (s ++ t)) (crcBytes 0#32 s) t.length =
      crcBytes 0#32 t :=
  project_append x86 s t (isPower_affineSpanConst x86 h)

end Projection

/-! ## The vector lanes -/

section Fields

/-- The low word of a lane. -/
def lowWord (i : Fin 4) : Fin 8 := ⟨2 * i.val, by omega⟩

/-- A lane of 128 bits. -/
def field (a : Zmm) (i : Fin 4) : BitVec 128 :=
  loadu (a (Zmm.half false (lowWord i))) (a (Zmm.half true (lowWord i)))

variable (a b : Zmm) (i : Fin 4)

theorem low64_field : low64 (field a i) = a (lowWord i) := by
  have hhalf : Zmm.half false (lowWord i) = lowWord i := by
    revert i
    decide
  rw [field, low64_loadu, hhalf]

theorem loadu_halves (p : BitVec 128) : loadu (low64 p) (high64 p) = p := by
  apply BitVec.eq_of_getLsbD_eq
  intro j hj
  rw [loadu, BitVec.getLsbD_append, low64, high64, BitVec.getLsbD_setWidth, BitVec.getLsbD_setWidth,
    BitVec.getLsbD_ushiftRight]
  rcases Nat.lt_or_ge j 64 with hlow | hhigh
  · rw [if_pos hlow, decide_eq_true hlow, Bool.true_and]
  · have hword : j - 64 < 64 := by omega
    rw [if_neg (Nat.not_lt.mpr hhigh), decide_eq_true hword, Bool.true_and,
      Nat.add_sub_cancel' hhigh]

theorem field_clmul : field (Zmm.clmulepi64 false a b) i =
    SpanField.clmulepi64 (a (lowWord i)) (b (lowWord i)) := by
  fin_cases i <;> exact loadu_halves _

theorem field_xor : field (Zmm.xor a b) i = field a i ^^^ field b i := by
  apply BitVec.eq_of_getLsbD_eq
  intro j hj
  simp only [field, Zmm.xor, loadu, BitVec.getLsbD_xor, BitVec.getLsbD_append]
  split <;> rfl

/-- The low word behind a rotation by at most eight bytes is cut out of the lane. -/
theorem alignr_low {n : ℕ} (hn : n ≤ 8) :
    alignrEpi8 a a n (lowWord i) = low64 (field a i >>> (8 * n)) := by
  have heven : (lowWord i).val % 2 = 0 := Nat.mul_mod_right 2 i.val
  rw [alignrEpi8, if_pos heven]
  apply BitVec.eq_of_getLsbD_eq
  intro j hj
  have hinside : 8 * n + j < 128 := by omega
  have hlow : j < 128 := by omega
  simp only [low64, field, BitVec.getLsbD_setWidth, BitVec.getLsbD_ushiftRight,
    BitVec.getLsbD_append, if_pos hinside, decide_eq_true hlow, Bool.true_and]

/-- In every lane the sequence is the scalar one. -/
theorem barrettFields_low (p : Zmm) (c d : BitVec 64)
    (h : field p i = SpanField.clmulepi64 c d) :
    (barrettFields p (lowWord i)).setWidth 32 = (clmulReduceModVmPcl c d).setWidth 32 := by
  simp only [barrettFields, ← low64_field, field_xor, field_clmul]
  simp only [low64_field, alignr_low _ i (show 4 ≤ 8 by decide),
    alignr_low _ i (show 7 ≤ 8 by decide), field_xor, field_clmul, h]
  simp only [clmulReduceModVmPcl, mmClmulepi64_low, low64_loadu, srliSi128]
  rw [low64, BitVec.setWidth_setWidth_of_le _ (by decide), BitVec.setWidth_setWidth_of_le _ (by decide),
    BitVec.setWidth_eq]

end Fields

theorem spreadLanes_low (idx : Fin 8 → ℕ) (lanes : Fin 8 → BitVec 32) (i : Fin 4) :
    spreadLanes idx lanes (lowWord i) = (lanes (Fin.ofNat 8 (idx (lowWord i)))).setWidth 64 := by
  have hmask : (0x55#8).getLsbD (lowWord i) = true := by
    revert i
    decide
  exact if_pos hmask

/-- The vector lanes are the scalar lanes. -/
theorem projectVec_eq (cumLanes prefixLanes : Fin 8 → BitVec 32) (cAdv : BitVec 64) :
    projectVec cumLanes prefixLanes cAdv = projectScalar true cumLanes prefixLanes cAdv := by
  have hlow (idx : Fin 8 → ℕ) (i : Fin 4) :
      (barrettFields (Zmm.clmulepi64 false (spreadLanes idx prefixLanes) fun _ => cAdv)
        (lowWord i)).setWidth 32 = (clmulReduceModVmPcl
          ((prefixLanes (Fin.ofNat 8 (idx (lowWord i)))).setWidth 64) cAdv).setWidth 32 := by
    rw [barrettFields_low i _ _ _ (field_clmul _ _ i), spreadLanes_low]
  have hfield (j : Fin 8) :
      Fin.ofNat 8 (2 * (j.val % 4)) = lowWord ⟨j.val % 4, Nat.mod_lt _ (by decide)⟩ := by
    revert j
    decide
  have hindex (j : Fin 8) : Fin.ofNat 8 ((if j.val < 4 then idxA else idxB)
      (lowWord ⟨j.val % 4, Nat.mod_lt _ (by decide)⟩)) = j := by
    revert j
    decide
  funext j
  have hj := hindex j
  simp only [projectVec, projectScalar]
  rw [BitVec.xor_comm, hfield, clmulReduceModVm, if_pos rfl]
  split
  · rename_i hin
    rw [if_pos hin] at hj
    rw [hlow, hj]
  · rename_i hout
    rw [if_neg hout] at hj
    rw [hlow, hj]

/-! ## Lanes of whole blocks -/

/-- The bytes of a lane in the first blocks. -/
def laneStream (body : List UInt8) (k : Fin 8) (n : ℕ) : List UInt8 :=
  (List.range n).flatMap fun b => (body.drop (64 * b + 8 * k)).take 8

theorem laneStream_succ (body : List UInt8) (k : Fin 8) (n : ℕ) :
    laneStream body k (n + 1) = laneStream body k n ++ (body.drop (64 * n + 8 * k)).take 8 := by
  rw [laneStream, List.range_succ, List.flatMap_append, List.flatMap_singleton]
  rfl

theorem laneStream_length {body : List UInt8} (k : Fin 8) {n : ℕ} (h : 64 * n ≤ body.length) :
    (laneStream body k n).length = 8 * n := by
  induction n with
  | zero => rfl
  | succ n ih =>
      have hk := k.isLt
      rw [laneStream_succ, List.length_append, ih (by omega), take_length (by omega)]
      omega

theorem laneStream_append {s : List UInt8} {m : ℕ} (hs : s.length = 64 * m) (t : List UInt8)
    (k : Fin 8) (n : ℕ) :
    laneStream (s ++ t) k (m + n) = laneStream s k m ++ laneStream t k n := by
  have hk := k.isLt
  rw [laneStream, List.range_add, List.flatMap_append, List.flatMap_map]
  congr 1
  · apply List.flatMap_congr
    intro b hb
    have hlt := List.mem_range.mp hb
    rw [List.drop_append_of_le_length (by omega), List.take_append_of_le_length]
    rw [List.length_drop]
    omega
  · apply List.flatMap_congr
    intro b _
    have hoffset : 64 * (m + b) + 8 * k.val = s.length + (64 * b + 8 * k.val) := by omega
    rw [hoffset, ← List.drop_drop, List.drop_left]

/-- The lanes of a body of whole blocks. -/
theorem sinkLanes_blocks (x86 : Bool) {body : List UInt8} {m : ℕ} (h : body.length = 64 * m) :
    sinkLanes x86 body = fun k => crcBytes 0#32 (laneStream body k m) := by
  have hW := registers_lawful x86
  let start : Fin 8 → BitVec 32 := fun _ => 0#32
  have hinv : ∃ n, (blocks (registers x86) body start).1 = 64 * n ∧
      (blocks (registers x86) body start).2 = fun k => crcBytes 0#32 (laneStream body k n) := by
    refine strides_invariant (P := fun j lanes => ∃ n, j = 64 * n ∧
      lanes = fun k => crcBytes 0#32 (laneStream body k n)) _ _ _ ?_ ⟨0, rfl, rfl⟩
    rintro j lanes hj ⟨n, rfl, rfl⟩
    refine ⟨n + 1, rfl, funext fun k => ?_⟩
    have hk := k.isLt
    rw [laneStream_succ, crcBytes_append, qword, hW.u64 _ _ (take_length (by omega))]
    rfl
  have hle : (blocks (registers x86) body start).1 ≤ body.length := blocks_le start
  have hdone : body.length < (blocks (registers x86) body start).1 + 64 := blocks_done start
  obtain ⟨n, hcursor, hlanes⟩ := hinv
  have hall : n = m := by omega
  rw [sinkLanes, sinkRegisters_eq, sinkTail_eq hW.lane hle, hcursor, hlanes, hall, ← h, List.drop_length, List.foldl_nil]

/-- A span of whole blocks is projected out of the lanes behind and before it. -/
theorem project_blocks (x86 : Bool) {s t : List UInt8} (hs : 64 ∣ s.length) (ht : 64 ∣ t.length)
    (hlen : t.length ≤ 16384) :
    projectScalar x86 (sinkLanes x86 (s ++ t)) (sinkLanes x86 s)
      (affineSpanConst x86 (t.length / 8)) = sinkLanes x86 t := by
  obtain ⟨m, hm⟩ := hs
  obtain ⟨n, hn⟩ := ht
  have hsum : (s ++ t).length = 64 * (m + n) := by
    rw [List.length_append]
    omega
  funext k
  have hstream : (laneStream t k n).length = 8 * n := laneStream_length k (by omega)
  have hpower : IsPower (affineSpanConst x86 (t.length / 8)) (8 * (laneStream t k n).length) := by
    rw [hstream, show t.length / 8 = 8 * n by omega]
    exact isPower_affineSpanConst x86 (by omega)
  rw [projectScalar, sinkLanes_blocks x86 hsum, sinkLanes_blocks x86 hm, sinkLanes_blocks x86 hn]
  dsimp only
  rw [laneStream_append hm t k n]
  exact project_append x86 _ _ hpower

/-! ## The law -/

/-- The constant for a length is the power of the inverse variable. -/
theorem affineSpanConst_mod (x86 : Bool) {spanLen : ℕ} (h : spanLen ≤ 2048) :
    (poly (affineSpanConst x86 spanLen) * X ^ (8 * spanLen)) %ₘ poly vm = 1 := by
  have hclass : AdjoinRoot.mk crcVm (poly (affineSpanConst x86 spanLen) * X ^ (8 * spanLen)) =
      AdjoinRoot.mk crcVm 1 := by
    rw [map_mul, map_pow, AdjoinRoot.mk_X, map_one]
    refine (congrArg (· * AdjoinRoot.root crcVm ^ (8 * spanLen))
      (isPower_affineSpanConst x86 h).2).trans ?_
    rw [← mul_pow, mul_comm inverse, root_mul_inverse, one_pow]
  have hone : (1 : (ZMod 2)[X]) %ₘ crcVm = 1 := by
    rw [modByMonic_eq_self_iff crcVm_monic, degree_one, crcVm_degree]
    decide
  rw [← hone]
  exact modByMonic_eq_of_dvd_sub crcVm_monic (AdjoinRoot.mk_eq_mk.mp hclass)

end HftProj.Testkit.AffineSpan
