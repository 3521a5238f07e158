import HftProj.Testkit.SpanField

/-!
# Span records

The power tables of `x`, the chunk record and the accumulator, and their composition. A price
setter's tag is an offset, shifted by the degree of what comes before.
-/

namespace HftProj.Testkit.SpanField

open HftProj.Lib
open Polynomial

/-! ## The tables -/

/-- `T_LEN`. -/
def tLen : ℕ := 1 <<< 16

section Tables

variable (cpu : Cpu)

/-- `t_pow`: entry `k`, from the one before. -/
@[grind =]
def tPow : ℕ → BitVec 64
  | 0 => 1#64
  | k + 1 => mulmod cpu (tPow k) 2#64

/-- `shift_chunk`. -/
def shiftChunk (d : ℕ) : BitVec 64 := tPow cpu d

/-- The upper table of `shift_pow`: entry `q`, from the one before. -/
@[grind =]
def tHi : ℕ → BitVec 64
  | 0 => 1#64
  | q + 1 => mulmod cpu (tHi q) (mulmod cpu (tPow cpu (tLen - 1)) 2#64)

/-- `shift_pow`. -/
def shiftPow (d : ℕ) : BitVec 64 :=
  if d >>> 16 = 0 then tPow cpu (d &&& 0xFFFF)
  else mulmod cpu (tHi cpu (d >>> 16)) (tPow cpu (d &&& 0xFFFF))

end Tables

/-- The class of `x`. -/
noncomputable def root : AdjoinRoot spanQ := AdjoinRoot.mk spanQ X

/-- The generator of the field is a unit. -/
theorem isUnit_root : IsUnit root := by
  have hzero : root ^ 64 + root ^ 4 + root ^ 3 + root + 1 = 0 := by
    have hself : AdjoinRoot.mk spanQ (X ^ 64 + X ^ 4 + X ^ 3 + X + 1) = 0 := AdjoinRoot.mk_self
    rw [root]
    simpa only [map_add, map_pow, map_one] using hself
  apply IsUnit.of_mul_eq_one (-(root ^ 63 + root ^ 3 + root ^ 2 + 1))
  linear_combination -hzero

@[simp]
theorem res_generator : res 2#64 = root := by
  have hbit : (2#64 : BitVec 64) = 1#64 <<< 1 := by decide
  rw [res, residue, hbit, poly_twoPow (by decide), pow_one, root]

@[simp]
theorem res_tPow (cpu : Cpu) (k : ℕ) : res (tPow cpu k) = root ^ k := by
  induction k with
  | zero => rw [tPow, res_one, pow_zero]
  | succ k ih => rw [tPow, res_mulmod, ih, res_generator, pow_succ]

@[simp]
theorem res_tHi (cpu : Cpu) (q : ℕ) : res (tHi cpu q) = root ^ (65536 * q) := by
  have hlen : tLen - 1 + 1 = 65536 := by decide
  induction q with
  | zero => rw [tHi, res_one, Nat.mul_zero, pow_zero]
  | succ q ih =>
      rw [tHi, res_mulmod, ih, res_mulmod, res_tPow, res_generator, ← pow_succ, hlen,
        ← pow_add, Nat.mul_succ]

@[simp]
theorem res_shiftPow (cpu : Cpu) (d : ℕ) : res (shiftPow cpu d) = root ^ d := by
  have hlow : d &&& 0xFFFF = d % 65536 := Nat.and_two_pow_sub_one_eq_mod d 16
  have hhigh : d >>> 16 = d / 65536 := Nat.shiftRight_eq_div_pow d 16
  rw [shiftPow, hlow, hhigh]
  split
  · rename_i hzero
    rw [res_tPow, Nat.mod_eq_of_lt (by omega)]
  · rw [res_mulmod, res_tHi, res_tPow, ← pow_add, Nat.div_add_mod]

theorem shiftPow_eq_tPow (cpu : Cpu) (d : ℕ) : shiftPow cpu d = tPow cpu d := by
  apply res_injective
  rw [res_shiftPow, res_tPow]

/-- Both levels are read inside their tables. -/
theorem shiftPow_in_bounds {d : ℕ} (h : d < 2 ^ 32) : d >>> 16 < tLen ∧ d &&& 0xFFFF < tLen := by
  have hlow : d &&& 0xFFFF = d % 65536 := Nat.and_two_pow_sub_one_eq_mod d 16
  have hhigh : d >>> 16 = d / 65536 := Nat.shiftRight_eq_div_pow d 16
  have hlen : tLen = 65536 := rfl
  omega

/-- A word whose class is a power of `x` is the remainder of that power. -/
theorem poly_of_res {a : BitVec 64} {d : ℕ} (h : res a = root ^ d) :
    poly a = (X ^ d : (ZMod 2)[X]) %ₘ spanQ := by
  rw [root, ← map_pow] at h
  exact poly_eq_modByMonic spanQ_monic spanQ_degree (residue_eq_iff.mp h)

/-! ## The records -/

/-- `FLG_SETTER`. -/
def flgSetter : BitVec 16 := 1#16

/-- The chunk record. -/
@[ext]
structure R36 where
  v : BitVec 64
  db : BitVec 64
  da : BitVec 64
  px : BitVec 32
  tag : BitVec 16
  w : BitVec 16
  cnt : BitVec 16
  flg : BitVec 16
  deriving DecidableEq

/-- `R36::IDENTITY`. -/
def R36.identity : R36 :=
  { v := 0, db := 0, da := 0, px := 0, tag := 0, w := 0, cnt := 0, flg := 0 }

/-- The pass accumulator, which stores its linear part. -/
@[ext]
structure P64 where
  v : BitVec 64
  c : BitVec 64
  db : BitVec 64
  da : BitVec 64
  px : BitVec 32
  tag : BitVec 32
  deg : BitVec 32
  cnt : BitVec 32
  flg : BitVec 16
  deriving DecidableEq

/-- `P64::IDENTITY`. -/
def P64.identity : P64 :=
  { v := 0, c := 1, db := 0, da := 0, px := 0, tag := 0, deg := 0, cnt := 0, flg := 0 }

section Composition

variable (cpu : Cpu)

/-- `R36::c`. -/
def R36.c (r : R36) : BitVec 64 := shiftChunk cpu r.w.toNat

/-- `from_r36`. -/
def P64.fromR36 (r : R36) : P64 where
  v := r.v
  c := r.c cpu
  db := r.db
  da := r.da
  px := r.px
  tag := r.tag.setWidth 32
  deg := r.w.setWidth 32
  cnt := r.cnt.setWidth 32
  flg := r.flg

/-- The price setter that survives a composition, and its tag. -/
def laterSetter (a b : P64) : BitVec 32 × BitVec 32 :=
  if b.flg &&& flgSetter ≠ 0#16 then (b.px, a.deg + b.tag) else (a.px, a.tag)

/-- `p64_compose`. -/
def p64Compose (a b : P64) : P64 where
  v := mulmod cpu a.v b.c ^^^ b.v
  c := mulmod cpu a.c b.c
  db := a.db + b.db
  da := a.da + b.da
  px := (laterSetter a b).1
  tag := (laterSetter a b).2
  deg := a.deg + b.deg
  cnt := a.cnt + b.cnt
  flg := a.flg ||| b.flg

/-- `hash_apply`. -/
def hashApply (h : BitVec 64) (r : R36) : BitVec 64 := mulmod cpu h (r.c cpu) ^^^ r.v

/-- `hash_apply_p64`. -/
def hashApplyP64 (h : BitVec 64) (r : P64) : BitVec 64 := mulmod cpu h r.c ^^^ r.v

/-- `hash_merge`. -/
def hashMerge (hEarly hLate : BitVec 64) (wLate : ℕ) : BitVec 64 :=
  mulmod cpu hEarly (shiftPow cpu wLate) ^^^ hLate

/-- `compose_records`. -/
def composeRecords (recs : List R36) : P64 :=
  recs.foldl (fun acc r => p64Compose cpu acc (P64.fromR36 cpu r)) P64.identity

end Composition

section Laws

variable (cpu : Cpu) (a b c : P64)

/-- A record carries a price setter. -/
def P64.Sets : Prop := a.flg &&& flgSetter ≠ 0#16

instance : Decidable a.Sets := inferInstanceAs (Decidable (_ ≠ _))

theorem sets_compose : (p64Compose cpu a b).Sets ↔ a.Sets ∨ b.Sets := by
  rw [P64.Sets, P64.Sets, P64.Sets, flgSetter, lowest_bit, lowest_bit, lowest_bit]
  simp [p64Compose]

theorem laterSetter_of_sets (h : b.Sets) : laterSetter a b = (b.px, a.deg + b.tag) := if_pos h

theorem laterSetter_of_unset (h : ¬ b.Sets) : laterSetter a b = (a.px, a.tag) := if_neg h

/-- The surviving setter does not depend on the bracketing. -/
theorem laterSetter_assoc :
    laterSetter (p64Compose cpu a b) c = laterSetter a (p64Compose cpu b c) := by
  by_cases hc : c.Sets
  · rw [laterSetter_of_sets _ _ hc,
      laterSetter_of_sets _ _ ((sets_compose cpu b c).mpr (Or.inr hc))]
    simp only [p64Compose, laterSetter_of_sets b c hc, BitVec.add_assoc]
  · rw [laterSetter_of_unset _ _ hc]
    by_cases hb : b.Sets
    · rw [laterSetter_of_sets _ _ ((sets_compose cpu b c).mpr (Or.inl hb))]
      simp only [p64Compose, laterSetter_of_sets a b hb, laterSetter_of_unset b c hc]
    · have hbc : ¬ (p64Compose cpu b c).Sets := by
        rw [sets_compose]
        exact not_or.mpr ⟨hb, hc⟩
      rw [laterSetter_of_unset _ _ hbc]
      simp only [p64Compose, laterSetter_of_unset a b hb]

theorem p64Compose_assoc :
    p64Compose cpu (p64Compose cpu a b) c = p64Compose cpu a (p64Compose cpu b c) := by
  have hv : mulmod cpu (mulmod cpu a.v b.c ^^^ b.v) c.c ^^^ c.v =
      mulmod cpu a.v (mulmod cpu b.c c.c) ^^^ (mulmod cpu b.v c.c ^^^ c.v) := by
    rw [xor_mulmod, mulmod_assoc, BitVec.xor_assoc]
  ext1
  · exact hv
  · exact mulmod_assoc cpu a.c b.c c.c
  · exact BitVec.add_assoc a.db b.db c.db
  · exact BitVec.add_assoc a.da b.da c.da
  · exact congrArg Prod.fst (laterSetter_assoc cpu a b c)
  · exact congrArg Prod.snd (laterSetter_assoc cpu a b c)
  · exact BitVec.add_assoc a.deg b.deg c.deg
  · exact BitVec.add_assoc a.cnt b.cnt c.cnt
  · exact BitVec.or_assoc a.flg b.flg c.flg

theorem zero_mulmod (x : BitVec 64) : mulmod cpu 0#64 x = 0#64 := by
  apply res_injective
  rw [res_mulmod, res_zero, zero_mul]

theorem p64Compose_identity : p64Compose cpu a P64.identity = a := by
  have hunset : ¬ P64.identity.Sets := by decide
  ext1
  · exact (BitVec.xor_zero).trans (mulmod_one cpu a.v)
  · exact mulmod_one cpu a.c
  · exact BitVec.add_zero a.db
  · exact BitVec.add_zero a.da
  · exact congrArg Prod.fst (laterSetter_of_unset a _ hunset)
  · exact congrArg Prod.snd (laterSetter_of_unset a _ hunset)
  · exact BitVec.add_zero a.deg
  · exact BitVec.add_zero a.cnt
  · exact BitVec.or_zero

/-- Without a setter there is no price and no tag. -/
def P64.Clean : Prop := ¬ a.Sets → a.px = 0#32 ∧ a.tag = 0#32

/-- Composing the identity with a record drops an unset price and tag, nothing else. -/
theorem identity_p64Compose :
    p64Compose cpu P64.identity b =
      { b with px := if b.Sets then b.px else 0#32, tag := if b.Sets then b.tag else 0#32 } := by
  have hpair : laterSetter P64.identity b =
      (if b.Sets then b.px else 0#32, if b.Sets then b.tag else 0#32) := by
    by_cases hb : b.Sets
    · rw [laterSetter_of_sets _ _ hb, if_pos hb, if_pos hb]
      exact Prod.ext rfl (BitVec.zero_add b.tag)
    · rw [laterSetter_of_unset _ _ hb, if_neg hb, if_neg hb]
      rfl
  ext1
  · change mulmod cpu 0#64 b.c ^^^ b.v = b.v
    rw [zero_mulmod, BitVec.zero_xor]
  · exact one_mulmod cpu b.c
  · exact BitVec.zero_add b.db
  · exact BitVec.zero_add b.da
  · exact congrArg Prod.fst hpair
  · exact congrArg Prod.snd hpair
  · exact BitVec.zero_add b.deg
  · exact BitVec.zero_add b.cnt
  · exact BitVec.zero_or

theorem identity_p64Compose_iff : p64Compose cpu P64.identity b = b ↔ b.Clean := by
  rw [identity_p64Compose]
  by_cases hb : b.Sets
  · simp [P64.Clean, hb]
  · rw [if_neg hb, if_neg hb]
    constructor
    · intro heq _
      exact ⟨(congrArg P64.px heq).symm, (congrArg P64.tag heq).symm⟩
    · intro hclean
      obtain ⟨hpx, htag⟩ := hclean hb
      ext1 <;> simp [hpx, htag]

end Laws

end HftProj.Testkit.SpanField
