import HftProj.Testkit.CrcFold

/-!
# The fold kernels agree with the scalar kernel

The states are classes of the bytes that they have taken, in the ring of the checksum's
polynomial. The constants are powers of the variable there, so a step lifts the class over the
next unit, the three streams add up to the one, and the ending is the register behind the bytes
of the lane.
-/

namespace HftProj.Testkit.CrcFold

open HftProj.Lib
open SpanField SpanHash CrcRegister FrameTag
open Polynomial

/-! ## Mirrored words -/

section Words

theorem getLsbD_fromBits (f : ℕ → Bool) (n p : ℕ) :
    (fromBits f n).getLsbD p = (decide (p < n) && f p) := by
  induction n with
  | zero => simp [fromBits]
  | succ n ih =>
      rw [fromBits, BitVec.getLsbD_cons, ih]
      by_cases hp : p = n
      · simp [hp]
      · have hlt : p < n + 1 ↔ p < n := by omega
        simp [hp, hlt]

/-- A parity in which one bit is selected. -/
theorem parity_single (f : ℕ → Bool) (m n : ℕ) (r : Bool) :
    (List.range n).foldl (fun r t => r ^^ (decide (t = m) && f t)) r =
      (r ^^ (decide (m < n) && f m)) := by
  induction n with
  | zero => simp
  | succ n ih =>
      rw [List.range_succ, List.foldl_append, ih, List.foldl_cons, List.foldl_nil]
      by_cases hm : n = m
      · simp [hm]
      · have hlt : m < n + 1 ↔ m < n := by omega
        simp [hm, hlt]

theorem bitrevMat_row : ∀ i t : Fin 8,
    bitrevMat.getLsbD (8 * (7 - i.val) + t.val) = decide (t.val = 7 - i.val) := by decide

/-- The matrix reverses the bits of every byte. -/
theorem affineWord_bitrev (x : BitVec 64) {p : ℕ} (hp : p < 64) :
    (affineWord x bitrevMat 0#8).getLsbD p = x.getLsbD (8 * (p / 8) + (7 - p % 8)) := by
  have hmod : p % 8 < 8 := Nat.mod_lt p (by decide)
  have hrow : (List.range 8).foldl (fun r t => r ^^ (bitrevMat.getLsbD (8 * (7 - p % 8) + t) &&
      x.getLsbD (8 * (p / 8) + t))) false = (List.range 8).foldl
        (fun r t => r ^^ (decide (t = 7 - p % 8) && x.getLsbD (8 * (p / 8) + t))) false := by
    apply List.foldl_ext
    intro r t ht
    rw [bitrevMat_row ⟨p % 8, hmod⟩ ⟨t, List.mem_range.mp ht⟩]
  have hlt : 7 - p % 8 < 8 := by omega
  rw [affineWord, getLsbD_fromBits, decide_eq_true hp, Bool.true_and, BitVec.getLsbD_zero, hrow,
    parity_single (fun t => x.getLsbD (8 * (p / 8) + t)), decide_eq_true hlt, Bool.true_and,
    Bool.false_xor]

theorem bswapQw_byte : ∀ i t : Fin 8,
    leByte (loadu512 bswapQw 0 i) t.val = BitVec.ofNat 8 (8 * (i.val % 2) + 7 - t.val) := by
  decide

theorem half_self (i : Fin 8) : Zmm.half (decide (i.val % 2 = 1)) i = i := by
  revert i
  decide

/-- A selector below 16 is its own low nibble. -/
theorem selector_nibble : ∀ n : Fin 16, (BitVec.ofNat 8 n.val).getLsbD 7 = false ∧
    (BitVec.ofNat 8 n.val &&& 15#8).toNat = n.val := by decide

/-- The shuffle swaps the bytes of every word. -/
theorem shuffle_bswap (a : Zmm) (i : Fin 8) {p : ℕ} (hp : p < 64) :
    (shuffleEpi8 a (loadu512 bswapQw 0) i).getLsbD p =
      (a i).getLsbD (8 * (7 - p / 8) + p % 8) := by
  have hbyte : p / 8 < 8 := by omega
  have hmask : leByte (loadu512 bswapQw 0 i) (p / 8) =
      BitVec.ofNat 8 (8 * (i.val % 2) + 7 - p / 8) := bswapQw_byte i ⟨p / 8, hbyte⟩
  have hlt : 8 * (i.val % 2) + 7 - p / 8 < 16 := by omega
  obtain ⟨hkeep, hnibble⟩ := selector_nibble ⟨8 * (i.val % 2) + 7 - p / 8, hlt⟩
  dsimp only at hkeep hnibble
  have hself := half_self i
  have hrem : (8 * (i.val % 2) + 7 - p / 8) % 8 = 7 - p / 8 := by omega
  rw [shuffleEpi8, getLsbD_fromBits, hmask]
  dsimp only
  rw [hkeep, hnibble, decide_eq_true hp, hrem, Bool.not_false, Bool.true_and, Bool.true_and]
  obtain hi | hi : i.val % 2 = 0 ∨ i.val % 2 = 1 := by omega
  · rw [decide_eq_false (by omega)] at hself
    rw [if_pos (by omega), hself]
  · rw [decide_eq_true hi] at hself
    rw [if_neg (by omega), hself]

/-- `rev64` of every word: the bits of each byte and the bytes are reversed. -/
theorem rev64_word (x : Zmm) (i : Fin 8) :
    shuffleEpi8 (gf2p8affine x (set1 bitrevMat) 0#8) (loadu512 bswapQw 0) i = (x i).reverse := by
  apply BitVec.eq_of_getLsbD_eq
  intro p hp
  have hq : 8 * (7 - p / 8) + p % 8 < 64 := by omega
  have hindex : 8 * ((8 * (7 - p / 8) + p % 8) / 8) + (7 - (8 * (7 - p / 8) + p % 8) % 8) =
      64 - 1 - p := by omega
  rw [shuffle_bswap _ i hp, gf2p8affine, set1, affineWord_bitrev _ hq, hindex,
    BitVec.getLsbD_reverse, BitVec.getMsbD_eq_getLsbD, decide_eq_true hp, Bool.true_and]

theorem unpack_word (high : Bool) (a b : Zmm) (i : Fin 8) :
    unpack high a b i = if i.val % 2 = 0 then a (Zmm.half high i) else b (Zmm.half high i) := rfl

/-- The unpack takes words as they are. -/
theorem unpack_affine (high : Bool) (a b : Zmm) (w : BitVec 64) (imm : BitVec 8) :
    unpack high (gf2p8affine a (set1 w) imm) (gf2p8affine b (set1 w) imm) =
      gf2p8affine (unpack high a b) (set1 w) imm := by
  funext i
  rw [unpack_word, gf2p8affine, gf2p8affine, gf2p8affine, unpack_word]
  split
  · rfl
  · rfl

theorem half_half (b c : Bool) (k : Fin 8) : Zmm.half b (Zmm.half c k) = Zmm.half b k := by
  revert k
  cases b <;> cases c <;> decide

theorem half_mod (b : Bool) (k : Fin 8) : (Zmm.half b k).val % 2 = b.toNat := by
  revert k
  cases b <;> decide

variable (body : List UInt8) (j : ℕ) (k : Fin 8)

/-- The units of the lane's register. -/
def unitReg : Zmm :=
  if k.val % 2 = 0 then (pairUnits body j).1 else (pairUnits body j).2

theorem unitReg_eq (i : Fin 8) : unitReg body j k i =
    (unpack (decide (k.val % 2 = 1)) (loadu512 body (128 * j + 64)) (loadu512 body (128 * j))
      i).reverse := by
  have hpair (high : Bool) : shuffleEpi8 (unpack high (prepBlock body (128 * j + 64))
      (prepBlock body (128 * j))) (loadu512 bswapQw 0) i =
      (unpack high (loadu512 body (128 * j + 64)) (loadu512 body (128 * j)) i).reverse := by
    rw [prepBlock, prepBlock, unpack_affine, rev64_word]
  rw [unitReg]
  obtain hk | hk : k.val % 2 = 0 ∨ k.val % 2 = 1 := by omega
  · rw [if_pos hk, decide_eq_false (by omega)]
    exact hpair false
  · rw [if_neg (by omega), decide_eq_true hk]
    exact hpair true

/-- The high word of a unit is the lane's word of the first block. -/
theorem unitReg_high : unitReg body j k (Zmm.half true k) =
    (qword body (128 * j + 8 * k.val)).reverse := by
  have hodd : ¬(Zmm.half true k).val % 2 = 0 := by
    rw [half_mod]
    decide
  rw [unitReg_eq, unpack_word, if_neg hodd, half_half, half_self, loadu512]

/-- The low word of a unit is the lane's word of the second block. -/
theorem unitReg_low : unitReg body j k (Zmm.half false k) =
    (qword body (128 * j + 64 + 8 * k.val)).reverse := by
  have heven : (Zmm.half false k).val % 2 = 0 := half_mod false k
  rw [unitReg_eq, unpack_word, if_pos heven, half_half, half_self, loadu512]

end Words

/-! ## Classes -/

section Classes

/-- The class of a state of two words. -/
noncomputable def wordsClass (hi lo : BitVec 64) : AdjoinRoot crcPoly :=
  root ^ 64 * residue crcPoly hi + residue crcPoly lo

theorem residue_words (p : BitVec 128) :
    residue crcPoly p = wordsClass (high64 p) (low64 p) := by
  rw [residue, poly_words, wide, map_add, map_mul, mk_X_pow, add_comm]
  rfl

theorem residue_clmul (a b : BitVec 64) :
    residue crcPoly (SpanField.clmulepi64 a b) = residue crcPoly a * residue crcPoly b := by
  rw [residue, clmulepi64_poly, map_mul]
  rfl

/-- The class of a lane of a register. -/
noncomputable def classOf (z : Zmm) (k : Fin 8) : AdjoinRoot crcPoly :=
  wordsClass (z (Zmm.half true k)) (z (Zmm.half false k))

theorem classOf_xor (a b : Zmm) (k : Fin 8) :
    classOf (Zmm.xor a b) k = classOf a k + classOf b k := by
  have hword (i : Fin 8) : residue crcPoly (Zmm.xor a b i) =
      residue crcPoly (a i) + residue crcPoly (b i) := residue_xor
  rw [classOf, wordsClass, hword, hword, classOf, classOf, wordsClass, wordsClass]
  ring

theorem classOf_clmul (high : Bool) (a : Zmm) (w : BitVec 64) (k : Fin 8) :
    classOf (Zmm.clmulepi64 high a (set1 w)) k =
      residue crcPoly (a (Zmm.half high k)) * residue crcPoly w := by
  have hhigh : Zmm.clmulepi64 high a (set1 w) (Zmm.half true k) =
      high64 (SpanField.clmulepi64 (a (Zmm.half high k)) w) := by
    have hodd : ¬(Zmm.half true k).val % 2 = 0 := by
      rw [half_mod]
      decide
    rw [Zmm.clmulepi64, if_neg hodd, half_half, set1]
  have hlow : Zmm.clmulepi64 high a (set1 w) (Zmm.half false k) =
      low64 (SpanField.clmulepi64 (a (Zmm.half high k)) w) := by
    have heven : (Zmm.half false k).val % 2 = 0 := half_mod false k
    rw [Zmm.clmulepi64, if_pos heven, half_half, set1]
  rw [classOf, hhigh, hlow, ← residue_words, residue_clmul]

/-- A pair of constants that lifts a state by a power of the variable. -/
def Lifts (kHi kLo : BitVec 64) (n : ℕ) : Prop :=
  residue crcPoly kHi = root ^ (64 + n) ∧ residue crcPoly kLo = root ^ n

theorem classOf_lift {kHi kLo : BitVec 64} {n : ℕ} (h : Lifts kHi kLo n) (v : Zmm) (k : Fin 8) :
    classOf (lift v kHi kLo) k = root ^ n * classOf v k := by
  rw [lift, classOf_xor, classOf_clmul, classOf_clmul, h.1, h.2, classOf, wordsClass]
  ring

/-- A constant is the power that so many rounds of the register make of the highest bit. -/
theorem residue_power {n : ℕ} {w : BitVec 32} (h : bitStep^[n] 0x80000000#32 = w.reverse) :
    residue crcPoly (w.setWidth 64) = root ^ n := by
  have hone : reflected 0x80000000#32 = 1 := by
    have hbit : (0x80000000#32).reverse = 1#32 := by decide +kernel
    rw [reflected, hbit, residue_one (by decide)]
  have hpower := reflected_iterate n 0x80000000#32
  rw [h, hone, mul_one, reflected, BitVec.reverse_reverse_eq] at hpower
  rw [residue, poly_setWidth w (by decide)]
  exact hpower

/-- What the rounds of the register make of the highest bit, for the three pairs. -/
theorem lift_constants :
    ∀ c ∈ [(128, 0x18571d18#32), (192, 0x6503ea99#32), (256, 0x59a3508a#32),
      (320, 0x7bba6798#32), (384, 0xe6957b4d#32), (448, 0xaa5eec4a#32)],
      bitStep^[c.1] 0x80000000#32 = c.2.reverse := by
  decide +kernel

theorem lifts_unit : Lifts kp192 kp128 128 :=
  ⟨@residue_power 192 0x6503ea99#32 (lift_constants (192, _) (by simp)),
    @residue_power 128 0x18571d18#32 (lift_constants (128, _) (by simp))⟩

theorem lifts_two : Lifts kp320 kp256 256 :=
  ⟨@residue_power 320 0x7bba6798#32 (lift_constants (320, _) (by simp)),
    @residue_power 256 0x59a3508a#32 (lift_constants (256, _) (by simp))⟩

theorem lifts_three : Lifts kp448 kp384 384 :=
  ⟨@residue_power 448 0xaa5eec4a#32 (lift_constants (448, _) (by simp)),
    @residue_power 384 0xe6957b4d#32 (lift_constants (384, _) (by simp))⟩

end Classes

/-! ## The states -/

section States

variable (body : List UInt8) (k : Fin 8)

/-- The class of a lane's state. -/
noncomputable def FoldStates.cls (st : FoldStates) (k : Fin 8) : AdjoinRoot crcPoly :=
  classOf (if k.val % 2 = 0 then st.even else st.odd) k

/-- The class of a lane's unit. -/
noncomputable def unitClass (j : ℕ) : AdjoinRoot crcPoly := classOf (unitReg body j k) k

theorem cls_seed (j : ℕ) : (seed (pairUnits body j)).cls k = unitClass body k j := by
  rw [FoldStates.cls, unitClass, unitReg, seed]

theorem cls_zero : FoldStates.zero.cls k = 0 := by
  have hword (i : Fin 8) : set1 0#64 i = 0#64 := rfl
  rw [FoldStates.cls, FoldStates.zero]
  dsimp only
  rw [ite_self, classOf, wordsClass, hword, hword, residue_zero, mul_zero, add_zero]

theorem cls_stepBy {kHi kLo : BitVec 64} {n : ℕ} (h : Lifts kHi kLo n) (st : FoldStates)
    (j : ℕ) :
    (stepBy kHi kLo st (pairUnits body j)).cls k = root ^ n * st.cls k + unitClass body k j := by
  rw [FoldStates.cls, FoldStates.cls, unitClass, unitReg, stepBy]
  split
  · rw [classOf_xor, classOf_lift h]
  · rw [classOf_xor, classOf_lift h]

/-- One state for each lane. -/
theorem cls_foldWordPairs (wp : ℕ) :
    (foldWordPairs body wp).cls k = horner (root ^ 128) (unitClass body k) wp := by
  rw [foldWordPairs]
  split
  · next hzero => rw [hzero, cls_zero, horner]
  · next hpos =>
    obtain ⟨n, rfl⟩ := Nat.exists_eq_succ_of_ne_zero hpos
    rw [Nat.succ_sub_one]
    clear hpos
    induction n with
    | zero =>
        rw [List.range'_zero, List.foldl_nil, cls_seed, horner, horner, mul_zero, zero_add]
    | succ n ih =>
        rw [List.range'_concat, List.foldl_append, List.foldl_cons, List.foldl_nil, foldStep,
          cls_stepBy body k lifts_unit, ← foldStep, ih, Nat.one_mul, Nat.add_comm 1 n]
        rfl

theorem cls_feed_self (st : ℕ → FoldStates) (m q : ℕ) :
    (feed body st m q m).cls k = root ^ 384 * (st m).cls k + unitClass body k q := by
  rw [feed, Function.update_self, foldStep3, cls_stepBy body k lifts_three]

theorem feed_of_ne (st : ℕ → FoldStates) {m n : ℕ} (q : ℕ) (hn : n ≠ m) :
    feed body st m q n = st n := Function.update_of_ne hn _ st

/-- An unrolled round feeds every stream its own unit. -/
theorem cls_round (st : ℕ → FoldStates) (q : ℕ) {m : ℕ} (hm : m < 3) :
    (feed body (feed body (feed body st 0 q) 1 (q + 1)) 2 (q + 2) m).cls k =
      root ^ 384 * (st m).cls k + unitClass body k (q + m) := by
  obtain rfl | rfl | rfl : m = 0 ∨ m = 1 ∨ m = 2 := by omega
  · rw [feed_of_ne body _ _ (by decide), feed_of_ne body _ _ (by decide), cls_feed_self,
      Nat.add_zero]
  · rw [feed_of_ne body _ _ (by decide), cls_feed_self, feed_of_ne body _ _ (by decide)]
  · rw [cls_feed_self, feed_of_ne body _ _ (by decide), feed_of_ne body _ _ (by decide)]

/-- The seeds are the streams of the first three units. -/
theorem cls_seeds (wp : ℕ) {m : ℕ} (hm : m < 3) :
    (if m < wp then seed (pairUnits body m) else FoldStates.zero).cls k =
      hornerStream (root ^ 128) (unitClass body k) m (min 3 wp) := by
  obtain hseeded | hempty := Nat.lt_or_ge m wp
  · rw [if_pos hseeded, cls_seed]
    obtain rfl | rfl | hwp : wp = 1 ∨ wp = 2 ∨ 3 ≤ wp := by omega
    · obtain rfl : m = 0 := by omega
      simp [hornerStream]
    · obtain rfl | rfl : m = 0 ∨ m = 1 := by omega
      · simp [hornerStream]
      · simp [hornerStream]
    · rw [Nat.min_eq_left hwp, ← Nat.zero_add 3, hornerStream_round _ _ (Nat.zero_mod 3) hm]
      simp [hornerStream]
  · rw [if_neg (Nat.not_lt.mpr hempty), cls_zero]
    obtain rfl | rfl | rfl : wp = 0 ∨ wp = 1 ∨ wp = 2 := by omega
    · rfl
    · have hne : 0 ≠ m := by omega
      simp [hornerStream, hne]
    · obtain rfl : m = 2 := by omega
      simp [hornerStream]

/-- The streams hold every third unit. -/
theorem cls_tripleStreams (wp : ℕ) {m : ℕ} (hm : m < 3) :
    (tripleStreams body wp m).cls k = hornerStream (root ^ 128) (unitClass body k) m wp := by
  have hcube : (root ^ 128) ^ 3 = root ^ 384 := (pow_mul root 128 3).symm
  -- Behind the unrolled rounds the cursor is a multiple of three.
  have hrounds := strides_invariant (show 0 < 3 by decide)
    (fun st q => feed body (feed body (feed body st 0 q) 1 (q + 1)) 2 (q + 2)) wp
    (P := fun q st => q % 3 = 0 ∧ ∀ m < 3, (st m).cls k =
      hornerStream (root ^ 128) (unitClass body k) m (min q wp)) (by
      rintro q st hq ⟨hthird, hst⟩
      refine ⟨by omega, fun m hm => ?_⟩
      have hround := hornerStream_round (root ^ 128) (unitClass body k) hthird hm
      have hold := hst m hm
      rw [Nat.min_eq_left (by omega)] at hold
      rw [Nat.min_eq_left hq, hround, hcube, ← hold, cls_round body k st q hm])
    (i := 3) (s := fun m => if m < wp then seed (pairUnits body m) else .zero)
    ⟨rfl, fun m hm => cls_seeds body k wp hm⟩
  rw [tripleStreams]
  generalize strides (show 0 < 3 by decide)
    (fun st q => feed body (feed body (feed body st 0 q) 1 (q + 1)) 2 (q + 2)) wp 3
    (fun m => if m < wp then seed (pairUnits body m) else FoldStates.zero) = p at hrounds
  have hlast := strides_invariant (show 0 < 1 by decide) (fun st q => feed body st (q % 3) q) wp
    (P := fun q st => ∀ m < 3, (st m).cls k =
      hornerStream (root ^ 128) (unitClass body k) m (min q wp)) (by
      intro q st hq hst m hm
      have hold := hst m hm
      rw [Nat.min_eq_left (by omega)] at hold
      rw [Nat.min_eq_left hq]
      by_cases hturn : q % 3 = m
      · rw [hornerStream_hit _ _ hturn, hcube, ← hold, hturn, cls_feed_self]
      · rw [hornerStream_miss _ _ hturn, feed_of_ne body st q (Ne.symm hturn), hold])
    hrounds.2
  have hdone := strides_done (show 0 < 1 by decide) (fun st q => feed body st (q % 3) q) wp p.1 p.2
  have hend := hlast m hm
  rwa [Nat.min_eq_right (by omega)] at hend

theorem cls_mergeStream {kHi kLo : BitVec 64} {n : ℕ} (h : Lifts kHi kLo n) (acc v : Zmm) :
    classOf (mergeStream acc v kHi kLo) k = classOf acc k + root ^ n * classOf v k := by
  rw [mergeStream, classOf_xor, classOf_lift h]

theorem roles_eq (wp : ℕ) : roles wp = (wp % 3, (wp + 1) % 3, (wp + 2) % 3) := by
  rw [roles]
  split_ifs with hzero hone
  · have hmid : (wp + 1) % 3 = 1 := by omega
    have hbase : (wp + 2) % 3 = 2 := by omega
    rw [hzero, hmid, hbase]
  · have hmid : (wp + 1) % 3 = 2 := by omega
    have hbase : (wp + 2) % 3 = 0 := by omega
    rw [hone, hmid, hbase]
  · have hfar : wp % 3 = 2 := by omega
    have hmid : (wp + 1) % 3 = 0 := by omega
    have hbase : (wp + 2) % 3 = 1 := by omega
    rw [hfar, hmid, hbase]

/-- The streams merged are the one state. -/
theorem cls_foldWordTriples (wp : ℕ) :
    (foldWordTriples body wp).cls k = horner (root ^ 128) (unitClass body k) wp := by
  rw [foldWordTriples]
  split
  · next hzero => rw [hzero, cls_zero, horner]
  · have hsquare : (root ^ 128) ^ 2 = root ^ 256 := (pow_mul root 128 2).symm
    have hlt (n : ℕ) : n % 3 < 3 := Nat.mod_lt n (by decide)
    have hmerge (far mid base : FoldStates) (units : ℕ) :
        (FoldStates.mk (mergeStream (mergeStream base.even far.even kp320 kp256) mid.even
          kp192 kp128) (mergeStream (mergeStream base.odd far.odd kp320 kp256) mid.odd
          kp192 kp128) units).cls k =
          base.cls k + root ^ 256 * far.cls k + root ^ 128 * mid.cls k := by
      rw [FoldStates.cls, FoldStates.cls, FoldStates.cls, FoldStates.cls]
      split
      · rw [cls_mergeStream k lifts_unit, cls_mergeStream k lifts_two]
      · rw [cls_mergeStream k lifts_unit, cls_mergeStream k lifts_two]
    rw [roles_eq]
    dsimp only
    rw [hmerge, cls_tripleStreams body k wp (hlt _), cls_tripleStreams body k wp (hlt _),
      cls_tripleStreams body k wp (hlt _), horner_streams, hsquare]

end States

end HftProj.Testkit.CrcFold
