import HftProj.Testkit.FoldKernels

/-!
# The endings of the fold kernels

The bytes of a lane have a class, which the folded state of the lane holds, so its ending is the
register behind them. The reference kernel takes the same bytes into the lane, and the kernels
return its value for every span.
-/

namespace HftProj.Testkit.CrcFold

open HftProj.Lib
open SpanField SpanHash CrcRegister FrameTag
open Polynomial

/-! ## Bytes and their classes -/

section Bytes

theorem bytesPoly_append (xs ys : List UInt8) :
    bytesPoly (xs ++ ys) = X ^ (8 * ys.length) * bytesPoly xs + bytesPoly ys := by
  induction ys using List.reverseRecOn with
  | nil =>
      rw [List.append_nil, List.length_nil, Nat.mul_zero, pow_zero, one_mul]
      exact (add_zero _).symm
  | append_singleton ys b ih =>
      rw [← List.append_assoc, bytesPoly_snoc, bytesPoly_snoc, ih, List.length_append,
        List.length_singleton, Nat.mul_succ, pow_add]
      ring

/-- The class of a byte string. -/
noncomputable def bytesClass (bytes : List UInt8) : AdjoinRoot crcPoly :=
  AdjoinRoot.mk crcPoly (bytesPoly bytes)

theorem bytesClass_nil : bytesClass [] = 0 := map_zero _

theorem bytesClass_append (xs ys : List UInt8) :
    bytesClass (xs ++ ys) = root ^ (8 * ys.length) * bytesClass xs + bytesClass ys := by
  rw [bytesClass, bytesPoly_append, map_add, map_mul, mk_X_pow, bytesClass, bytesClass]

variable (body : List UInt8) {o o' : ℕ}

/-- Eight bytes of the body. -/
def eight (o : ℕ) : List UInt8 := (body.drop o).take 8

variable {body}

theorem eight_length (ho : o + 8 ≤ body.length) : (eight body o).length = 8 := take_length ho

theorem residue_qword (ho : o + 8 ≤ body.length) :
    residue crcPoly (qword body o).reverse = bytesClass (eight body o) := by
  have hwidth : 64 = 8 * ((body.drop o).take 8).length := by rw [take_length ho]
  rw [qword, residue, poly_reverse_leWord _ hwidth, bytesClass, eight]

/-- A unit is the class of its sixteen bytes. -/
theorem wordsClass_unit (ho : o + 8 ≤ body.length) (ho' : o' + 8 ≤ body.length) :
    wordsClass (qword body o).reverse (qword body o').reverse =
      bytesClass (eight body o ++ eight body o') := by
  rw [wordsClass, residue_qword ho, residue_qword ho', bytesClass_append, eight_length ho']

/-- A unit behind a string. -/
theorem bytesClass_unit (bytes : List UInt8) (ho : o + 8 ≤ body.length)
    (ho' : o' + 8 ≤ body.length) : bytesClass (bytes ++ (eight body o ++ eight body o')) =
      root ^ 128 * bytesClass bytes +
        wordsClass (qword body o).reverse (qword body o').reverse := by
  rw [bytesClass_append, List.length_append, eight_length ho, eight_length ho',
    wordsClass_unit ho ho']

/-- The next eight bytes of the body. -/
theorem take_eight (o n : ℕ) :
    (body.drop o).take (n + 8) = (body.drop o).take n ++ eight body (o + n) := by
  rw [eight, List.take_add, List.drop_drop]

theorem crcU64_qword (c : BitVec 32) (ho : o + 8 ≤ body.length) :
    crcU64 c (qword body o) = crcBytes c (eight body o) :=
  crc32cU64_leWord true c _ (take_length ho)

theorem chainBytes_eq (c : BitVec 32) {start stop : ℕ} (hstop : stop ≤ body.length)
    (hstart : start ≤ stop) :
    chainBytes c body start stop = crcBytes c ((body.take stop).drop start) :=
  congrArg Prod.snd (chain_eq (registers_lawful true) hstop hstart)

theorem crcU64_instruction (c : BitVec 32) (v : BitVec 64) : crcU64 c v = mmCrc32 c v := by
  rw [crcU64, crc32cU64, if_pos rfl, mmCrc32U64, BitVec.setWidth_setWidth_of_le _ (by decide),
    BitVec.setWidth_setWidth_of_le _ (by decide), BitVec.setWidth_eq, BitVec.setWidth_eq]

theorem reflected_reset : reflected 0#32 = 0 := by
  have hzero : (0#32).reverse = 0#32 := by decide +kernel
  rw [reflected, hzero, residue_zero]

/-- Two instructions bring a state back to the register behind its bytes. -/
theorem ending_eq {hi lo : BitVec 64} {bytes : List UInt8}
    (h : wordsClass hi lo = bytesClass bytes) :
    crcU64 (crcU64 0#32 hi.reverse) lo.reverse = crcBytes 0#32 bytes := by
  apply reflected_injective
  have hhi : reflected hi.reverse = residue crcPoly hi := by
    rw [reflected, BitVec.reverse_reverse_eq]
  have hlo : reflected lo.reverse = residue crcPoly lo := by
    rw [reflected, BitVec.reverse_reverse_eq]
  rw [crcU64_instruction, crcU64_instruction, reflected_mmCrc32, reflected_mmCrc32, hhi, hlo,
    reflected_crcBytes, reflected_reset, ← bytesClass, ← h, wordsClass]
  ring

end Bytes

/-! ## The bytes of a lane -/

section Lanes

variable (body : List UInt8) (k : Fin 8)

/-- The words of a lane in the first blocks. -/
@[grind =]
def laneBytes : ℕ → List UInt8
  | 0 => []
  | n + 1 => laneBytes n ++ eight body (64 * n + 8 * k.val)

variable {body}

/-- The states hold the words of the block pairs. -/
theorem horner_lane {n : ℕ} (hn : 128 * n ≤ body.length) :
    horner (root ^ 128) (unitClass body k) n = bytesClass (laneBytes body k (2 * n)) := by
  induction n with
  | zero => exact bytesClass_nil.symm
  | succ n ih =>
      have hhigh : 128 * n + 8 * k.val + 8 ≤ body.length := by omega
      have hlow : 128 * n + 64 + 8 * k.val + 8 ≤ body.length := by omega
      have hfirst : 64 * (2 * n) = 128 * n := by omega
      have hsecond : 64 * (2 * n + 1) = 128 * n + 64 := by omega
      have hunit : unitClass body k n = wordsClass (qword body (128 * n + 8 * k.val)).reverse
          (qword body (128 * n + 64 + 8 * k.val)).reverse := by
        rw [unitClass, classOf, unitReg_high, unitReg_low]
      rw [horner, ih (by omega), hunit, ← bytesClass_unit _ hhigh hlow, Nat.mul_succ, laneBytes,
        laneBytes, hfirst, hsecond, List.append_assoc]

/-- The block loop of the reference kernel takes the words of every lane. -/
theorem blocks_eq (body : List UInt8) :
    blocks (registers true) body (fun _ => 0#32) = (64 * (body.length / 64),
      fun k => crcBytes 0#32 (laneBytes body k (body.length / 64))) := by
  have hwords := strides_invariant (show 0 < 64 by decide)
    (fun lanes j (k : Fin 8) => (registers true).u64 (lanes k) (qword body (j + 8 * k)))
    body.length (P := fun j s => j % 64 = 0 ∧ j ≤ body.length ∧
      s = fun k => crcBytes 0#32 (laneBytes body k (j / 64))) (by
      rintro j s hfits ⟨hblock, -, rfl⟩
      refine ⟨by omega, hfits, ?_⟩
      funext k
      have hnext : (j + 64) / 64 = j / 64 + 1 := by omega
      have hoffset : 64 * (j / 64) + 8 * k.val = j + 8 * k.val := by omega
      have hin : j + 8 * k.val + 8 ≤ body.length := by omega
      rw [hnext, laneBytes, hoffset, crcBytes_append]
      exact crcU64_qword _ hin)
    (i := 0) (s := fun _ => 0#32) ⟨rfl, Nat.zero_le _, rfl⟩
  obtain ⟨hblock, hin, hstate⟩ := hwords
  have hdone := @blocks_done _ (registers true) body fun _ => 0#32
  rw [blocks] at hdone ⊢
  have hcursor : (strides (show 0 < 64 by decide)
      (fun lanes j (k : Fin 8) => (registers true).u64 (lanes k) (qword body (j + 8 * k)))
      body.length 0 (fun _ => 0#32)).1 = 64 * (body.length / 64) := by omega
  refine Prod.ext hcursor ?_
  rw [hstate, hcursor, Nat.mul_div_cancel_left _ (by decide)]

/-- The lanes of the reference kernel: the words of each lane, and the tail in lane 0. -/
theorem sinkLanes_eq (body : List UInt8) :
    sinkLanes true body = Function.update
      (fun k => crcBytes 0#32 (laneBytes body k (body.length / 64))) 0
      (crcBytes 0#32
        (laneBytes body 0 (body.length / 64) ++ body.drop (64 * (body.length / 64)))) := by
  rw [sinkLanes, sinkRegisters_eq, blocks_eq,
    sinkTail_eq (registers_lawful true).lane (Nat.mul_div_le _ 64),
    foldl_lane fun c b => crc8 c b.toBitVec, crcBytes_append]
  rfl

end Lanes

/-! ## Lane 0 -/

section LaneZero

variable {body : List UInt8} {v : Lane0} {bytes : List UInt8}

/-- A state of lane 0 holds the bytes that have been folded; none, if the next unit seeds it. -/
def Lane0.Holds (v : Lane0) (bytes : List UInt8) : Prop :=
  wordsClass v.hi v.lo = bytesClass bytes ∧ (v.first = true → bytes = [])

theorem foldStepU128_class (vHi vLo uHi uLo : BitVec 64) :
    wordsClass (foldStepU128 vHi vLo uHi uLo).1 (foldStepU128 vHi vLo uHi uLo).2 =
      root ^ 128 * wordsClass vHi vLo + wordsClass uHi uLo := by
  have hhigh : mmClmulepi64 (loadu vLo vHi) (loadu kp192 0#64) 0x01#8 =
      SpanField.clmulepi64 vHi kp192 := by
    rw [mmClmulepi64, if_pos (by decide), if_neg (by decide), high64_loadu, low64_loadu]
  have hlow : mmClmulepi64 (loadu vLo vHi) (loadu kp128 0#64) 0x00#8 =
      SpanField.clmulepi64 vLo kp128 := by
    rw [mmClmulepi64, if_neg (by decide), if_neg (by decide), low64_loadu, low64_loadu]
  have hunit : residue crcPoly (loadu uLo uHi) = wordsClass uHi uLo := by
    rw [residue_words, high64_loadu, low64_loadu]
  rw [foldStepU128]
  dsimp only
  rw [← residue_words, residue_xor, residue_xor, hunit, hhigh, hlow, residue_clmul,
    residue_clmul, lifts_unit.1, lifts_unit.2, wordsClass.eq_def vHi vLo]
  ring

/-- A unit more. -/
theorem foldExtra_holds (hv : v.Holds bytes) {o o' : ℕ} (ho : o + 8 ≤ body.length)
    (ho' : o' + 8 ≤ body.length) :
    (foldExtra v (qword body o) (qword body o')).Holds
      (bytes ++ (eight body o ++ eight body o')) := by
  obtain ⟨hclass, hfirst⟩ := hv
  rw [foldExtra, mirrorUnit]
  by_cases hseed : v.first = true
  · rw [if_pos hseed, hfirst hseed, List.nil_append]
    exact ⟨wordsClass_unit ho ho', fun h => nomatch h⟩
  · rw [if_neg hseed]
    refine ⟨?_, fun h => nomatch h⟩
    rw [bytesClass_unit bytes ho ho', ← hclass]
    exact foldStepU128_class v.hi v.lo _ _

/-- The units that follow each other in the body. -/
theorem foldTail_holds (hv : v.Holds bytes) {o n : ℕ} (ho : o + 16 * n ≤ body.length) :
    (foldTail body o n v).Holds (bytes ++ (body.drop o).take (16 * n)) := by
  induction n with
  | zero =>
      rw [Nat.mul_zero, List.take_zero, List.append_nil]
      exact hv
  | succ n ih =>
      have hfirst : o + 16 * n + 8 ≤ body.length := by omega
      have hsecond : o + 16 * n + 8 + 8 ≤ body.length := by omega
      have hsplit : (body.drop o).take (16 * (n + 1)) = (body.drop o).take (16 * n) ++
          (eight body (o + 16 * n) ++ eight body (o + 16 * n + 8)) := by
        rw [← List.append_assoc, ← take_eight]
        exact take_eight o (16 * n + 8)
      have hnext := foldExtra_holds (ih (by omega)) hfirst hsecond
      rw [foldTail, List.range_succ, List.foldl_append, List.foldl_cons, List.foldl_nil,
        ← foldTail, hsplit, ← List.append_assoc]
      exact hnext

/-- The ending of lane 0 when the rest of its bytes is at the end of the body. -/
theorem lane0Ending_tail (hblocks : 2 ≤ body.length / 64) {n : ℕ}
    (hn : n + (8 * (body.length / 64) + body.length % 64) % 16 = body.length % 64)
    (hv : v.Holds (laneBytes body 0 (body.length / 64) ++
      (body.drop (64 * (body.length / 64))).take n)) :
    lane0Ending body v = crcBytes 0#32
      (laneBytes body 0 (body.length / 64) ++ body.drop (64 * (body.length / 64))) := by
  have hlen : 64 * (body.length / 64) + body.length % 64 = body.length :=
    Nat.div_add_mod body.length 64
  have hunits : 0 < (8 * (body.length / 64) + body.length % 64) / 16 := by omega
  rw [lane0Ending]
  rw [if_pos hunits, ending_eq hv.1]
  by_cases hrest : 0 < (8 * (body.length / 64) + body.length % 64) % 16
  · have hin : (8 * (body.length / 64) + body.length % 64) % 16 ≤ body.length % 64 := by omega
    have hstart : 64 * (body.length / 64) + body.length % 64 -
        (8 * (body.length / 64) + body.length % 64) % 16 = 64 * (body.length / 64) + n := by omega
    rw [if_pos hrest, if_pos hin, hstart, hlen, chainBytes_eq _ (Nat.le_refl _) (by omega),
      List.take_length, ← crcBytes_append, List.append_assoc, ← List.drop_drop,
      List.take_append_drop]
  · have hall : (body.drop (64 * (body.length / 64))).length ≤ n := by
      rw [List.length_drop]
      omega
    rw [if_neg hrest, List.take_of_length_le hall]

/-- An unpaired word of lane 0. -/
theorem laneBytes_odd {blocks : ℕ} (hodd : blocks % 2 = 1) :
    laneBytes body 0 blocks =
      laneBytes body 0 (2 * (blocks / 2)) ++ eight body (64 * (blocks - 1)) := by
  obtain ⟨n, rfl⟩ : ∃ n, blocks = 2 * n + 1 := ⟨blocks / 2, by omega⟩
  have hpairs : (2 * n + 1) / 2 = n := by omega
  rw [hpairs, laneBytes, Nat.add_sub_cancel]
  rfl

/-- The ending of lane 0 when an unpaired word and a short tail are left. -/
theorem lane0Ending_word (hodd : body.length / 64 % 2 = 1) (hblocks : 2 ≤ body.length / 64)
    (hshort : body.length % 64 < 8)
    (hv : v.Holds (laneBytes body 0 (2 * (body.length / 64 / 2)))) :
    lane0Ending body v = crcBytes 0#32
      (laneBytes body 0 (body.length / 64) ++ body.drop (64 * (body.length / 64))) := by
  have hlen : 64 * (body.length / 64) + body.length % 64 = body.length :=
    Nat.div_add_mod body.length 64
  have hunits : 0 < (8 * (body.length / 64) + body.length % 64) / 16 := by omega
  have hrest : 0 < (8 * (body.length / 64) + body.length % 64) % 16 := by omega
  have hout : ¬(8 * (body.length / 64) + body.length % 64) % 16 ≤ body.length % 64 := by omega
  have hword : 64 * (body.length / 64 - 1) + 8 ≤ body.length := by omega
  rw [lane0Ending]
  rw [if_pos hunits, ending_eq hv.1, if_pos hrest, if_neg hout, crcU64_qword _ hword,
    ← crcBytes_append, ← laneBytes_odd hodd, hlen, chainBytes_eq _ (Nat.le_refl _) (by omega),
    List.take_length, ← crcBytes_append]

/-- The register of lane 0. -/
theorem lane0_eq (hblocks : 2 ≤ body.length / 64)
    (hv : v.Holds (laneBytes body 0 (2 * (body.length / 64 / 2)))) :
    lane0Ending body (lane0Extras body v) = crcBytes 0#32
      (laneBytes body 0 (body.length / 64) ++ body.drop (64 * (body.length / 64))) := by
  have hlen : 64 * (body.length / 64) + body.length % 64 = body.length :=
    Nat.div_add_mod body.length 64
  rw [lane0Extras]
  by_cases hodd : body.length / 64 % 2 = 1
  · rw [if_pos hodd]
    by_cases htail : 8 ≤ body.length % 64
    · have hword : 64 * (body.length / 64 - 1) + 8 ≤ body.length := by omega
      have hfirst : 64 * (body.length / 64) + 8 ≤ body.length := by omega
      have hsplit (n : ℕ) : laneBytes body 0 (body.length / 64) ++
          (body.drop (64 * (body.length / 64))).take (8 + n) =
          laneBytes body 0 (2 * (body.length / 64 / 2)) ++
            (eight body (64 * (body.length / 64 - 1)) ++ eight body (64 * (body.length / 64))) ++
            (body.drop (64 * (body.length / 64) + 8)).take n := by
        rw [laneBytes_odd hodd, List.take_add, List.drop_drop, eight.eq_def body]
        simp only [List.append_assoc]
        rfl
      rw [if_pos htail]
      apply lane0Ending_tail hblocks (n := 8 + 16 * ((body.length % 64 - 8) / 16)) (by omega)
      rw [hsplit]
      exact foldTail_holds (foldExtra_holds hv hword hfirst) (by omega)
    · rw [if_neg htail]
      exact lane0Ending_word hodd hblocks (Nat.lt_of_not_le htail) hv
  · rw [if_neg hodd]
    have hpaired : 2 * (body.length / 64 / 2) = body.length / 64 := by omega
    rw [hpaired] at hv
    apply lane0Ending_tail hblocks (n := 16 * (body.length % 64 / 16)) (by omega)
    exact foldTail_holds hv (by omega)

end LaneZero

/-! ## The kernels -/

section Kernels

variable {body : List UInt8} {st : FoldStates} {k : Fin 8}

/-- The register of a lane whose bytes end with a block. -/
theorem laneEnding_eq
    (hst : st.cls k = bytesClass (laneBytes body k (2 * (body.length / 64 / 2)))) :
    laneEnding body st k = crcBytes 0#32 (laneBytes body k (body.length / 64)) := by
  rw [laneEnding, rev64Qwords, rev64_word, rev64_word, ending_eq hst]
  by_cases hodd : body.length / 64 % 2 = 1
  · have hword : 64 * (body.length / 64 - 1) + 8 * k.val + 8 ≤ body.length := by omega
    have hpaired : 2 * (body.length / 64 / 2) = body.length / 64 - 1 := by omega
    have hlast : body.length / 64 = body.length / 64 - 1 + 1 := by omega
    rw [if_pos hodd, crcU64_qword _ hword, ← crcBytes_append, hpaired]
    conv_rhs => rw [hlast, laneBytes]
  · have hpaired : 2 * (body.length / 64 / 2) = body.length / 64 := by omega
    rw [if_neg hodd, hpaired]

/-- States that have folded the block pairs finish with the value of the reference kernel. -/
theorem finishSpan_eq (mode : Mode) (hlen : foldMinLen ≤ body.length)
    (hst : ∀ k, st.cls k = horner (root ^ 128) (unitClass body k) (body.length / 64 / 2)) :
    finishSpan mode body st = spanCrc32c8lane true mode body := by
  rw [foldMinLen] at hlen
  have hpairs : body.length / 64 / 2 ≠ 0 := by omega
  have hclass (k : Fin 8) :
      st.cls k = bytesClass (laneBytes body k (2 * (body.length / 64 / 2))) := by
    rw [hst k, horner_lane k (by omega)]
  have hzero : (Lane0.mk (st.even (Zmm.half true 0)) (st.even (Zmm.half false 0)) false).Holds
      (laneBytes body 0 (2 * (body.length / 64 / 2))) := ⟨hclass 0, fun h => nomatch h⟩
  rw [finishSpan, spanCrc32c8lane, sinkLanes_eq, if_neg hpairs]
  congr 1
  funext k
  rw [Function.update_apply]
  split
  · exact lane0_eq (by omega) hzero
  · exact laneEnding_eq (hclass k)

theorem spanFoldEval_eq (mode : Mode) (body : List UInt8) :
    spanFoldEval mode body = spanCrc32c8lane true mode body := by
  rw [spanFoldEval]
  split
  · rfl
  · next hlen =>
    exact finishSpan_eq mode (Nat.le_of_not_lt hlen) fun k => cls_foldWordPairs body k _

theorem spanFoldEvalTri_eq (mode : Mode) (body : List UInt8) :
    spanFoldEvalTri mode body = spanCrc32c8lane true mode body := by
  rw [spanFoldEvalTri]
  split
  · rfl
  · next hlen =>
    exact finishSpan_eq mode (Nat.le_of_not_lt hlen) fun k => cls_foldWordTriples body k _

/-- A loop over two states is two loops. -/
theorem foldl_pairs (a b : List UInt8) (js : List ℕ) (p : FoldStates × FoldStates) :
    js.foldl (fun st j => (foldStep st.1 (pairUnits a j), foldStep st.2 (pairUnits b j))) p =
      (js.foldl (fun st j => foldStep st (pairUnits a j)) p.1,
        js.foldl (fun st j => foldStep st (pairUnits b j)) p.2) := by
  induction js generalizing p with
  | nil => rfl
  | cons j js ih => exact ih _

/-- The fold goes on behind the common pairs. -/
theorem foldWordPairs_split (body : List UInt8) {common wp : ℕ} (hpos : 1 ≤ common)
    (hcommon : common ≤ wp) :
    (List.range' common (wp - common)).foldl (fun st j => foldStep st (pairUnits body j))
      ((List.range' 1 (common - 1)).foldl (fun st j => foldStep st (pairUnits body j))
        (seed (pairUnits body 0))) = foldWordPairs body wp := by
  have hnonzero : wp ≠ 0 := by omega
  have hstart : 1 + 1 * (common - 1) = common := by omega
  have hcount : common - 1 + (wp - common) = wp - 1 := by omega
  rw [foldWordPairs, if_neg hnonzero, ← hcount, ← List.range'_append, hstart, List.foldl_append]

theorem spanFoldEval2_eq (mode : Mode) (a b : List UInt8) :
    spanFoldEval2 mode a b = (spanCrc32c8lane true mode a, spanCrc32c8lane true mode b) := by
  rw [spanFoldEval2]
  split
  · rw [spanFoldEval_eq]
  split
  · rw [spanFoldEval_eq]
  next ha hb =>
  have hpos : 1 ≤ min (a.length / 64 / 2) (b.length / 64 / 2) := by
    rw [foldMinLen] at ha hb
    omega
  dsimp only
  rw [foldl_pairs, foldWordPairs_split a hpos (Nat.min_le_left _ _),
    foldWordPairs_split b hpos (Nat.min_le_right _ _),
    finishSpan_eq mode (Nat.le_of_not_lt ha) fun k => cls_foldWordPairs a k _,
    finishSpan_eq mode (Nat.le_of_not_lt hb) fun k => cls_foldWordPairs b k _]

theorem spanFoldEvalPair_eq (mode : Mode) (a b : List UInt8) :
    spanFoldEvalPair mode a b = (spanCrc32c8lane true mode a, spanCrc32c8lane true mode b) := by
  rw [spanFoldEvalPair]
  split
  · rw [spanFoldEval_eq]
  split
  · rw [spanFoldEval_eq]
  next ha hb =>
  dsimp only
  rw [finishSpan_eq mode (Nat.le_of_not_lt ha) fun k => cls_foldWordPairs a k _,
    finishSpan_eq mode (Nat.le_of_not_lt hb) fun k => cls_foldWordPairs b k _]

/-- Every fold kernel returns the value of the reference kernel for each of its spans, whatever
their lengths and whichever kernel combines the lanes. -/
theorem fold_kernels_eq_reference (mode : Mode) (a b : List UInt8) :
    spanFoldEval mode a = spanCrc32c8lane true mode a ∧
      spanFoldEval2 mode a b = (spanCrc32c8lane true mode a, spanCrc32c8lane true mode b) ∧
      spanFoldEvalPair mode a b = (spanCrc32c8lane true mode a, spanCrc32c8lane true mode b) ∧
      spanFoldEvalTri mode a = spanCrc32c8lane true mode a :=
  ⟨spanFoldEval_eq mode a, spanFoldEval2_eq mode a b, spanFoldEvalPair_eq mode a b,
    spanFoldEvalTri_eq mode a⟩

end Kernels

end HftProj.Testkit.CrcFold
