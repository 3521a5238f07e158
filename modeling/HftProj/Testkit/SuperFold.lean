import HftProj.Lib.AffineMaps
import HftProj.Testkit.SpanTrees

/-!
# Super-chunk folds

Sixteen records of 64 spans make a super-chunk. Two super-chunks fold at once: three levels of
a wide register compose neighbouring pairs in the even words, the odd words hold residue, and a
scalar pass carries the coordinates that need no product.
-/

namespace HftProj.Testkit.SuperFold

open HftProj.Lib.AffineMaps
open SpanField

/-- `SUB_SPANS`. -/
def subSpans : ℕ := 64

/-- `SUPER_SUBS`. -/
def superSubs : ℕ := 16

/-- `SUPER_SPANS`. -/
def superSpans : ℕ := 1024

/-! ## The plane kernel -/

/-- `L1_EV`. -/
def l1Ev : Fin 8 → ℕ := ![0, 8, 2, 8, 4, 8, 6, 8]

/-- `L1_OD`. -/
def l1Od : Fin 8 → ℕ := ![1, 8, 3, 8, 5, 8, 7, 8]

/-- `L2_EV`. -/
def l2Ev : Fin 8 → ℕ := ![0, 8, 4, 8, 0, 8, 4, 8]

/-- `L2_OD`. -/
def l2Od : Fin 8 → ℕ := ![2, 8, 6, 8, 2, 8, 6, 8]

/-- `L3_EV`. -/
def l3Ev : Fin 8 → ℕ := ![0, 8, 0, 8, 0, 8, 0, 8]

/-- `L3_OD`. -/
def l3Od : Fin 8 → ℕ := ![2, 8, 2, 8, 2, 8, 2, 8]

/-- The low halves of the lanes multiplied and folded twice, before the last XOR. -/
def foldedProducts (a b q : Zmm) : Zmm × Zmm × Zmm :=
  let p := Zmm.clmulepi64 false a b
  let t := Zmm.clmulepi64 true p q
  (p, t, Zmm.clmulepi64 true t q)

/-- `compose_pairs_level`. -/
def composePairsLevel (c v : Zmm) (idxEv idxOd : Fin 8 → ℕ) (q : Zmm) : Zmm × Zmm :=
  let ce := Zmm.permutexvar idxEv c
  let co := Zmm.permutexvar idxOd c
  let ve := Zmm.permutexvar idxEv v
  let vo := Zmm.permutexvar idxOd v
  let (pc, tc, uc) := foldedProducts ce co q
  let nc := Zmm.xor (Zmm.xor pc tc) uc
  let (pv, tv, uv) := foldedProducts ve co q
  let nv := Zmm.xor (Zmm.xor (Zmm.xor pv tv) uv) vo
  (nc, nv)

section Kernel

variable (cpu : Cpu)

/-- The scalar composition of two plane roots, read from the lowest word. -/
def planeRoot (s0 s1 : Zmm × Zmm) : BitVec 64 × BitVec 64 :=
  (mulmod cpu (s0.1 0) (s1.1 0), mulmod cpu (s0.2 0) (s1.1 0) ^^^ s1.2 0)

/-- `super_fold_x2_planes`. -/
def superFoldX2Planes (cp vp : Fin 4 → Zmm) : Fin 2 → BitVec 64 × BitVec 64 :=
  let q : Zmm := fun _ => spanQlow
  let planes : Fin 4 → Zmm × Zmm := [(l1Ev, l1Od), (l2Ev, l2Od), (l3Ev, l3Od)].foldl
    (fun s idx j => composePairsLevel (s j).1 (s j).2 idx.1 idx.2 q) fun j => (cp j, vp j)
  ![planeRoot cpu (planes 0) (planes 1), planeRoot cpu (planes 2) (planes 3)]

/-- The scalar twin's fold of one super-chunk: the planes in order, and their lanes. -/
def foldSuper (cp vp : Fin 4 → Zmm) (planes : List (Fin 4)) : BitVec 64 × BitVec 64 :=
  planes.foldl (fun acc pl => (List.finRange 8).foldl
    (fun acc i => (mulmod cpu acc.1 (cp pl i), mulmod cpu acc.2 (cp pl i) ^^^ vp pl i)) acc)
    (1#64, 0#64)

/-- `super_fold_x2_kernel`. -/
def superFoldX2Kernel (cp vp : Fin 4 → Zmm) : Fin 2 → BitVec 64 × BitVec 64 :=
  if cpu.avx512f ∧ cpu.vpclmulqdq then superFoldX2Planes cpu cp vp
  else ![foldSuper cpu cp vp [0, 1], foldSuper cpu cp vp [2, 3]]

/-! ## The folds -/

/-- The leaf that plane `j` holds in lane `i`. -/
def stagedLeaf (leaves : List P64) (j : Fin 4) (i : Fin 8) : P64 :=
  leaves.getD (j.val / 2 * superSubs + (j.val % 2 * (superSubs / 2) + i.val)) P64.identity

/-- The side fold's step. -/
def sideStep (acc p : P64) : P64 :=
  let acc := if p.flg &&& flgSetter ≠ 0#16 then { acc with px := p.px, tag := acc.deg + p.tag }
    else acc
  { acc with db := acc.db + p.db, da := acc.da + p.da, deg := acc.deg + p.deg,
             cnt := acc.cnt + p.cnt, flg := acc.flg ||| p.flg }

/-- `p64_fold_side`. -/
def p64FoldSide (leaves : List P64) : P64 := leaves.foldl sideStep P64.identity

/-- `super_fold_serial`. -/
def superFoldSerial (leaves : List P64) : P64 := leaves.foldl (p64Compose cpu) P64.identity

/-- `compose_span_run`. -/
def composeSpanRun (recs : List P64) : P64 := recs.foldl (p64Compose cpu) P64.identity

/-- `super_fold_pair`: it refuses any other number of leaves. -/
def superFoldPair (leaves : List P64) : Option (Fin 2 → P64) :=
  if leaves.length = 2 * superSubs then
    if cpu.avx512f ∧ cpu.vpclmulqdq then
      let roots := superFoldX2Planes cpu (fun j i => (stagedLeaf leaves j i).c)
        fun j i => (stagedLeaf leaves j i).v
      some fun k => { p64FoldSide ((leaves.drop (k.val * superSubs)).take superSubs) with
        c := (roots k).1, v := (roots k).2 }
    else some fun k => superFoldSerial cpu ((leaves.drop (k.val * superSubs)).take superSubs)
  else none

/-- One chunk of the forest: the roots of its two halves. -/
def forestChunk (chunk : List P64) : List P64 :=
  let roots := superFoldX2Kernel cpu (fun j i => (stagedLeaf chunk j i).c)
    fun j i => (stagedLeaf chunk j i).v
  [{ P64.identity with c := (roots 0).1, v := (roots 0).2 },
    { P64.identity with c := (roots 1).1, v := (roots 1).2 }]

/-- A level filled up with identities to whole chunks. -/
def padLevel (level : List P64) : List P64 :=
  if level.length % (2 * superSubs) ≠ 0 then
    level ++ List.replicate (2 * superSubs - level.length % (2 * superSubs)) P64.identity
  else level

/-- The next level of the forest. -/
def forestLevel (level : List P64) : List P64 :=
  (List.range ((padLevel level).length / (2 * superSubs))).flatMap fun j =>
    forestChunk cpu (((padLevel level).drop (j * (2 * superSubs))).take (2 * superSubs))

theorem padLevel_length (level : List P64) :
    (padLevel level).length = (level.length + 31) / 32 * 32 := by
  have hpair : 2 * superSubs = 32 := rfl
  rw [padLevel, hpair]
  split
  · rw [List.length_append, List.length_replicate]
    omega
  · omega

theorem forestLevel_length (level : List P64) :
    (forestLevel cpu level).length = (level.length + 31) / 32 * 2 := by
  have hpair : 2 * superSubs = 32 := rfl
  have hchunk (chunk : List P64) : (forestChunk cpu chunk).length = 2 := rfl
  simp only [forestLevel, List.length_flatMap, hchunk, List.map_const', List.sum_replicate,
    List.length_range, padLevel_length, hpair, Nat.mul_div_cancel _ (show 0 < 32 by decide),
    smul_eq_mul]

/-- The loop of `chain_verify_forest`. -/
@[grind =]
def forestLoop (level : List P64) : List P64 :=
  if 2 * superSubs < level.length then forestLoop (forestLevel cpu level) else level
termination_by level.length
decreasing_by
  have hpair : 2 * superSubs = 32 := rfl
  rw [forestLevel_length]
  omega

/-- `chain_verify_forest`. -/
def chainVerifyForest (steps : List P64) : P64 :=
  (forestLoop cpu steps).foldl (p64Compose cpu) P64.identity

/-- `partial_fold`. -/
def partialFold (subs tailSpans : List P64) (edge : ℕ) : P64 :=
  (tailSpans.take (edge % subSpans)).foldl (p64Compose cpu)
    (superFoldSerial cpu (subs.take (min (edge / subSpans) subs.length)))

end Kernel

variable {cpu : Cpu}

/-! ## Records as affine maps -/

/-- The map of a multiplier and a hash. -/
noncomputable def pairMap (s : BitVec 64 × BitVec 64) : Affine (AdjoinRoot spanQ) :=
  ⟨res s.1, res s.2⟩

/-- The map that a record applies to a running hash. -/
noncomputable def recordMap (p : P64) : Affine (AdjoinRoot spanQ) := pairMap (p.c, p.v)

theorem pairMap_injective : Function.Injective pairMap := by
  intro s s' h
  exact Prod.ext (res_injective (congrArg Affine.c h)) (res_injective (congrArg Affine.v h))

theorem pairMap_compose (s s' : BitVec 64 × BitVec 64) :
    pairMap (mulmod cpu s.1 s'.1, mulmod cpu s.2 s'.1 ^^^ s'.2) = pairMap s * pairMap s' := by
  apply Affine.ext
  · exact res_mulmod cpu s.1 s'.1
  · exact (res_xor _ _).trans (congrArg (· + res s'.2) (res_mulmod cpu s.2 s'.1))

theorem pairMap_one : pairMap (1#64, 0#64) = 1 := Affine.ext res_one res_zero

theorem recordMap_identity : recordMap P64.identity = 1 := pairMap_one

theorem recordMap_compose (a b : P64) :
    recordMap (p64Compose cpu a b) = recordMap a * recordMap b :=
  pairMap_compose (a.c, a.v) (b.c, b.v)

theorem recordMap_foldl (a : P64) (ps : List P64) :
    recordMap (ps.foldl (p64Compose cpu) a) = recordMap a * (ps.map recordMap).prod := by
  induction ps generalizing a with
  | nil => exact (mul_one _).symm
  | cons p ps ih =>
      rw [List.foldl_cons, ih, recordMap_compose, List.map_cons, List.prod_cons, mul_assoc]

theorem recordMap_run (ps : List P64) :
    recordMap (composeSpanRun cpu ps) = (ps.map recordMap).prod := by
  rw [composeSpanRun, recordMap_foldl, recordMap_identity, one_mul]

/-! ## The levels -/

/-- The map in one word position of a plane. -/
noncomputable def laneMap (s : Zmm × Zmm) (i : Fin 8) : Affine (AdjoinRoot spanQ) :=
  pairMap (s.1 i, s.2 i)

/-- In the even words a level holds the composed pairs. -/
theorem level_lane (c v : Zmm) (idxEv idxOd : Fin 8 → ℕ) {i : Fin 8} (hi : i.val % 2 = 0) :
    laneMap (composePairsLevel c v idxEv idxOd fun _ => spanQlow) i =
      laneMap (c, v) (Fin.ofNat 8 (idxEv i)) * laneMap (c, v) (Fin.ofNat 8 (idxOd i)) := by
  have hword (a b : Zmm) :
      (foldedProducts a b fun _ => spanQlow).1 i ^^^
          (foldedProducts a b fun _ => spanQlow).2.1 i ^^^
          (foldedProducts a b fun _ => spanQlow).2.2 i = mulmodClmul (a i) (b i) := by
    fin_cases i
    · rfl
    · cases hi
    · rfl
    · cases hi
    · rfl
    · cases hi
    · rfl
    · cases hi
  rw [laneMap, laneMap, laneMap, ← @pairMap_compose ⟨true, false, false⟩]
  apply congrArg pairMap
  apply Prod.ext
  · exact hword _ _
  · exact congrArg (· ^^^ v (Fin.ofNat 8 (idxOd i))) (hword _ _)

/-- Three levels leave the composition of the eight words in the lowest one. -/
theorem three_levels (c v : Zmm) :
    let q : Zmm := fun _ => spanQlow
    let s1 := composePairsLevel c v l1Ev l1Od q
    let s2 := composePairsLevel s1.1 s1.2 l2Ev l2Od q
    laneMap (composePairsLevel s2.1 s2.2 l3Ev l3Od q) 0 =
      ((List.finRange 8).map (laneMap (c, v))).prod := by
  intro q s1 s2
  have hone (i : Fin 8) (hi : i.val % 2 = 0) :
      laneMap s1 i = laneMap (c, v) (Fin.ofNat 8 (l1Ev i)) *
        laneMap (c, v) (Fin.ofNat 8 (l1Od i)) := level_lane c v l1Ev l1Od hi
  have htwo (i : Fin 8) (hi : i.val % 2 = 0) :
      laneMap s2 i = laneMap s1 (Fin.ofNat 8 (l2Ev i)) * laneMap s1 (Fin.ofNat 8 (l2Od i)) :=
    level_lane s1.1 s1.2 l2Ev l2Od hi
  calc laneMap (composePairsLevel s2.1 s2.2 l3Ev l3Od q) 0
      = laneMap s2 0 * laneMap s2 2 := level_lane s2.1 s2.2 l3Ev l3Od rfl
    _ = laneMap s1 0 * laneMap s1 2 * (laneMap s1 4 * laneMap s1 6) :=
        congrArg₂ (· * ·) (htwo 0 rfl) (htwo 2 rfl)
    _ = laneMap (c, v) 0 * laneMap (c, v) 1 * (laneMap (c, v) 2 * laneMap (c, v) 3) *
          (laneMap (c, v) 4 * laneMap (c, v) 5 * (laneMap (c, v) 6 * laneMap (c, v) 7)) :=
        congrArg₂ (· * ·) (congrArg₂ (· * ·) (hone 0 rfl) (hone 2 rfl))
          (congrArg₂ (· * ·) (hone 4 rfl) (hone 6 rfl))
    _ = ((List.finRange 8).map (laneMap (c, v))).prod := by
        have hlist : List.finRange 8 = [0, 1, 2, 3, 4, 5, 6, 7] := rfl
        simp only [hlist, List.map_cons, List.map_nil, List.prod_cons, List.prod_nil, mul_one,
          mul_assoc]

/-- The product of the maps of a plane's words. -/
noncomputable def planeProd (cp vp : Fin 4 → Zmm) (j : Fin 4) : Affine (AdjoinRoot spanQ) :=
  ((List.finRange 8).map fun i => pairMap (cp j i, vp j i)).prod

theorem superFoldX2Planes_maps (cp vp : Fin 4 → Zmm) :
    pairMap (superFoldX2Planes cpu cp vp 0) = planeProd cp vp 0 * planeProd cp vp 1 ∧
      pairMap (superFoldX2Planes cpu cp vp 1) = planeProd cp vp 2 * planeProd cp vp 3 := by
  have hroot (s s' : Zmm × Zmm) : pairMap (planeRoot cpu s s') = laneMap s 0 * laneMap s' 0 :=
    pairMap_compose (s.1 0, s.2 0) (s'.1 0, s'.2 0)
  constructor
  · exact (hroot _ _).trans
      (congrArg₂ (· * ·) (three_levels (cp 0) (vp 0)) (three_levels (cp 1) (vp 1)))
  · exact (hroot _ _).trans
      (congrArg₂ (· * ·) (three_levels (cp 2) (vp 2)) (three_levels (cp 3) (vp 3)))

theorem foldSuper_map (cp vp : Fin 4 → Zmm) (planes : List (Fin 4)) :
    pairMap (foldSuper cpu cp vp planes) = (planes.map (planeProd cp vp)).prod := by
  have hlanes (j : Fin 4) (acc : BitVec 64 × BitVec 64) (l : List (Fin 8)) :
      pairMap (l.foldl (fun acc i =>
        (mulmod cpu acc.1 (cp j i), mulmod cpu acc.2 (cp j i) ^^^ vp j i)) acc) =
      pairMap acc * (l.map fun i => pairMap (cp j i, vp j i)).prod := by
    induction l generalizing acc with
    | nil => exact (mul_one _).symm
    | cons i l ih =>
        rw [List.foldl_cons, ih, pairMap_compose acc (cp j i, vp j i), List.map_cons,
          List.prod_cons, mul_assoc]
  have hplanes (acc : BitVec 64 × BitVec 64) :
      pairMap (planes.foldl (fun acc j => (List.finRange 8).foldl (fun acc i =>
        (mulmod cpu acc.1 (cp j i), mulmod cpu acc.2 (cp j i) ^^^ vp j i)) acc) acc) =
      pairMap acc * (planes.map (planeProd cp vp)).prod := by
    induction planes generalizing acc with
    | nil => exact (mul_one _).symm
    | cons j planes ih =>
        rw [List.foldl_cons, ih, hlanes, List.map_cons, List.prod_cons, mul_assoc]
        rfl
  rw [foldSuper, hplanes, pairMap_one, one_mul]

/-- Both paths of the kernel return the roots of the two super-chunks. -/
theorem superFoldX2Kernel_maps (cp vp : Fin 4 → Zmm) :
    pairMap (superFoldX2Kernel cpu cp vp 0) = planeProd cp vp 0 * planeProd cp vp 1 ∧
      pairMap (superFoldX2Kernel cpu cp vp 1) = planeProd cp vp 2 * planeProd cp vp 3 := by
  have hscalar (j j' : Fin 4) : pairMap (foldSuper cpu cp vp [j, j']) =
      planeProd cp vp j * planeProd cp vp j' := by
    rw [foldSuper_map, List.map_cons, List.map_cons, List.map_nil, List.prod_cons, List.prod_cons,
      List.prod_nil, mul_one]
  rw [superFoldX2Kernel]
  split
  · exact superFoldX2Planes_maps cp vp
  · constructor
    · exact (congrArg pairMap (Matrix.cons_val_zero _ _)).trans (hscalar 0 1)
    · have hsecond (a b : BitVec 64 × BitVec 64) : ![a, b] 1 = b := rfl
      exact (congrArg pairMap (hsecond _ _)).trans (hscalar 2 3)

/-! ## The leaves -/

/-- The words of one plane are eight leaves in order. -/
theorem planeProd_staged {leaves : List P64} (h : leaves.length = 2 * superSubs) (j : Fin 4) :
    planeProd (fun j i => (stagedLeaf leaves j i).c) (fun j i => (stagedLeaf leaves j i).v) j =
      (((leaves.drop (j.val * 8)).take 8).map recordMap).prod := by
  have hslice : (leaves.drop (j.val * 8)).take 8 =
      (List.finRange 8).map fun i => stagedLeaf leaves j i := by
    have hlen : leaves.length = 32 := h
    apply List.ext_getElem
    · rw [List.length_take, List.length_drop, List.length_map, List.length_finRange, hlen]
      omega
    · intro n hn _
      have hn8 : n < 8 := (List.length_take_le 8 _).trans_lt' hn
      have hat : j.val / 2 * superSubs + (j.val % 2 * (superSubs / 2) + n) = j.val * 8 + n := by
        have hsubs : superSubs = 16 := rfl
        rw [hsubs]
        omega
      rw [List.getElem_take, List.getElem_drop, List.getElem_map, List.getElem_finRange,
        stagedLeaf, Fin.val_cast, hat, List.getElem_eq_getD P64.identity]
  rw [hslice, List.map_map]
  rfl

/-- Two neighbouring planes hold a super-chunk. -/
theorem staged_super {leaves : List P64} (h : leaves.length = 2 * superSubs) (k : Fin 2) :
    let prod := planeProd (fun j i => (stagedLeaf leaves j i).c)
      fun j i => (stagedLeaf leaves j i).v
    prod (Fin.ofNat 4 (2 * k.val)) * prod (Fin.ofNat 4 (2 * k.val + 1)) =
      (((leaves.drop (k.val * superSubs)).take superSubs).map recordMap).prod := by
  intro prod
  have hsubs : superSubs = 8 + 8 := rfl
  have hfirst : (Fin.ofNat 4 (2 * k.val)).val * 8 = k.val * superSubs := by
    fin_cases k <;> rfl
  have hsecond : (Fin.ofNat 4 (2 * k.val + 1)).val * 8 = k.val * superSubs + 8 := by
    fin_cases k <;> rfl
  change planeProd _ _ _ * planeProd _ _ _ = _
  rw [planeProd_staged h, planeProd_staged h, hfirst, hsecond, ← List.prod_append,
    ← List.map_append, ← List.drop_drop, ← List.take_add, ← hsubs]

/-- The side fold carries what the serial chain carries beside the hash. -/
theorem p64FoldSide_eq (leaves : List P64) :
    p64FoldSide leaves = { superFoldSerial cpu leaves with c := 1, v := 0 } := by
  have hstep (acc p : P64) : sideStep { acc with c := 1, v := 0 } p =
      { p64Compose cpu acc p with c := 1, v := 0 } := by
    by_cases hp : p.flg &&& flgSetter ≠ 0#16
    · simp only [sideStep, p64Compose, laterSetter_of_sets acc p hp, if_pos hp]
    · simp only [sideStep, p64Compose, laterSetter_of_unset acc p hp, if_neg hp]
  induction leaves using List.reverseRecOn with
  | nil => rfl
  | append_singleton leaves p ih =>
      rw [p64FoldSide, List.foldl_append, List.foldl_cons, List.foldl_nil, ← p64FoldSide, ih,
        hstep, superFoldSerial, superFoldSerial, List.foldl_append, List.foldl_cons,
        List.foldl_nil]

/-- A fold of 32 leaves returns the serial chains of its two halves, in every coordinate. -/
theorem superFoldPair_eq {leaves : List P64} (h : leaves.length = 2 * superSubs) :
    superFoldPair cpu leaves = some fun k =>
      superFoldSerial cpu ((leaves.drop (k.val * superSubs)).take superSubs) := by
  rw [superFoldPair, if_pos h]
  split
  · apply congrArg some
    funext k
    have hroot : superFoldX2Planes cpu (fun j i => (stagedLeaf leaves j i).c)
        (fun j i => (stagedLeaf leaves j i).v) k =
        ((superFoldSerial cpu ((leaves.drop (k.val * superSubs)).take superSubs)).c,
          (superFoldSerial cpu ((leaves.drop (k.val * superSubs)).take superSubs)).v) := by
      apply pairMap_injective
      have hserial := @recordMap_run cpu ((leaves.drop (k.val * superSubs)).take superSubs)
      rw [← staged_super h k] at hserial
      obtain ⟨hzero, hone⟩ := @superFoldX2Planes_maps cpu
        (fun j i => (stagedLeaf leaves j i).c) fun j i => (stagedLeaf leaves j i).v
      refine Eq.trans ?_ hserial.symm
      fin_cases k
      · exact hzero
      · exact hone
    simp only [hroot]
    rw [@p64FoldSide_eq cpu]
  · rfl

/-! ## The forest -/

/-- A record without count, degree, deltas, price and flags. -/
structure StepMap (p : P64) : Prop where
  cnt : p.cnt = 0
  deg : p.deg = 0
  db : p.db = 0
  da : p.da = 0
  px : p.px = 0
  flg : p.flg = 0

/-- The record of a multiplier and a hash alone. -/
def hashOnly (s : BitVec 64 × BitVec 64) : P64 := { P64.identity with c := s.1, v := s.2 }

theorem hashOnly_stepMap (s : BitVec 64 × BitVec 64) : StepMap (hashOnly s) :=
  ⟨rfl, rfl, rfl, rfl, rfl, rfl⟩

theorem identity_stepMap : StepMap P64.identity := ⟨rfl, rfl, rfl, rfl, rfl, rfl⟩

theorem hashOnly_compose (s : BitVec 64 × BitVec 64) {p : P64} (h : StepMap p) :
    p64Compose cpu (hashOnly s) p =
      hashOnly (mulmod cpu s.1 p.c, mulmod cpu s.2 p.c ^^^ p.v) := by
  have hunset : ¬ p.Sets := by
    intro hsets
    rw [P64.Sets, h.flg] at hsets
    exact hsets rfl
  simp only [p64Compose, hashOnly, laterSetter_of_unset _ _ hunset, h.cnt, h.deg, h.db, h.da, h.flg]
  rfl

/-- A chain of step maps is a multiplier and a hash, which their product determines. -/
theorem foldl_stepMaps {ps : List P64} (h : ∀ p ∈ ps, StepMap p) :
    ∃ s, ps.foldl (p64Compose cpu) P64.identity = hashOnly s ∧
      pairMap s = (ps.map recordMap).prod := by
  have hshape : ∃ s, ps.foldl (p64Compose cpu) P64.identity = hashOnly s := by
    induction ps using List.reverseRecOn with
    | nil => exact ⟨(1#64, 0#64), rfl⟩
    | append_singleton ps p ih =>
        obtain ⟨s, hs⟩ := ih fun q hq => h q (List.mem_append_left [p] hq)
        refine ⟨(mulmod cpu s.1 p.c, mulmod cpu s.2 p.c ^^^ p.v), ?_⟩
        rw [List.foldl_append, List.foldl_cons, List.foldl_nil, hs]
        exact hashOnly_compose s (h p (List.mem_append_right ps (List.mem_singleton_self p)))
  obtain ⟨s, hs⟩ := hshape
  refine ⟨s, hs, ?_⟩
  have hmap := @recordMap_run cpu ps
  rw [composeSpanRun, hs] at hmap
  exact hmap

theorem foldl_stepMaps_congr {ps qs : List P64} (hp : ∀ p ∈ ps, StepMap p)
    (hq : ∀ q ∈ qs, StepMap q) (h : (ps.map recordMap).prod = (qs.map recordMap).prod) :
    ps.foldl (p64Compose cpu) P64.identity = qs.foldl (p64Compose cpu) P64.identity := by
  obtain ⟨s, hs, hsmap⟩ := @foldl_stepMaps cpu _ hp
  obtain ⟨t, ht, htmap⟩ := @foldl_stepMaps cpu _ hq
  have hst : s = t := pairMap_injective (hsmap.trans (h.trans htmap.symm))
  rw [hs, ht, hst]

theorem forestChunk_map {chunk : List P64} (h : chunk.length = 2 * superSubs) :
    ((forestChunk cpu chunk).map recordMap).prod = (chunk.map recordMap).prod := by
  obtain ⟨hzero, hone⟩ := @superFoldX2Kernel_maps cpu
    (fun j i => (stagedLeaf chunk j i).c) fun j i => (stagedLeaf chunk j i).v
  have hfirst := hzero.trans (staged_super h 0)
  have hsecond := hone.trans (staged_super h 1)
  have hdrop : (chunk.drop superSubs).take superSubs = chunk.drop superSubs := by
    apply List.take_of_length_le
    rw [List.length_drop, h, Nat.two_mul, Nat.add_sub_cancel]
  calc ((forestChunk cpu chunk).map recordMap).prod
      = ((chunk.take superSubs).map recordMap).prod *
          ((chunk.drop superSubs).map recordMap).prod := by
        rw [← hdrop]
        exact congrArg₂ (· * ·) hfirst ((mul_one _).trans hsecond)
    _ = (chunk.map recordMap).prod := by
        rw [← List.prod_append, ← List.map_append, List.take_append_drop]

theorem padLevel_map (level : List P64) :
    ((padLevel level).map recordMap).prod = (level.map recordMap).prod := by
  rw [padLevel]
  split
  · rw [List.map_append, List.prod_append, List.map_replicate, recordMap_identity,
      List.prod_replicate, one_pow, mul_one]
  · rfl

/-- A level of the forest keeps the product. -/
theorem forestLevel_map (level : List P64) :
    ((forestLevel cpu level).map recordMap).prod = (level.map recordMap).prod := by
  have hpair : 2 * superSubs = 32 := rfl
  have hlen := padLevel_length level
  rw [← padLevel_map level, forestLevel, List.map_flatMap]
  calc (List.flatMap (fun j => (forestChunk cpu
          (((padLevel level).drop (j * (2 * superSubs))).take (2 * superSubs))).map recordMap)
          (List.range ((padLevel level).length / (2 * superSubs)))).prod
      = (List.flatMap (fun j =>
          (((padLevel level).drop (j * (2 * superSubs))).take (2 * superSubs)).map recordMap)
          (List.range ((padLevel level).length / (2 * superSubs)))).prod := by
        apply prod_flatMap_congr
        intro j hj
        apply forestChunk_map
        rw [List.mem_range, hpair] at hj
        rw [List.length_take, List.length_drop, hpair]
        omega
    _ = ((padLevel level).map recordMap).prod := by
        rw [← List.map_flatMap, flatMap_blocks]
        rw [hpair]
        omega

theorem forestLevel_stepMaps (level : List P64) : ∀ p ∈ forestLevel cpu level, StepMap p := by
  intro p hp
  obtain ⟨j, _, hp⟩ := List.mem_flatMap.mp hp
  obtain rfl | hp := List.mem_cons.mp hp
  · exact hashOnly_stepMap _
  · rw [List.mem_singleton.mp hp]
    exact hashOnly_stepMap _

/-- Whatever the length, the forest returns the serial chain of the step maps. -/
theorem chainVerifyForest_eq {steps : List P64} (h : ∀ p ∈ steps, StepMap p) :
    chainVerifyForest cpu steps = composeSpanRun cpu steps := by
  rw [chainVerifyForest]
  induction steps using forestLoop.induct cpu with
  | case1 level _ ih =>
      have hlevel := @forestLevel_stepMaps cpu level
      rw [forestLoop, if_pos ‹_›, ih hlevel]
      exact foldl_stepMaps_congr hlevel h (forestLevel_map level)
  | case2 level _ => rw [forestLoop, if_neg ‹_›, composeSpanRun]

/-! ## Partial folds -/

/-- Whole sub-records and the records after them make up the records before the edge. -/
theorem partialFold_eq {spans subs tailSpans : List P64} {edge : ℕ}
    (hsubs : ∀ k < edge / subSpans,
      subs[k]? = some (composeSpanRun cpu ((spans.drop (k * subSpans)).take subSpans)))
    (htail : tailSpans = spans.drop (edge / subSpans * subSpans)) :
    partialFold cpu subs tailSpans edge = composeSpanRun cpu (spans.take edge) := by
  have hwhole (n : ℕ) (hn : n ≤ edge / subSpans) :
      superFoldSerial cpu (subs.take n) = composeSpanRun cpu (spans.take (n * subSpans)) := by
    induction n with
    | zero => rw [Nat.zero_mul, List.take_zero, List.take_zero, superFoldSerial, composeSpanRun]
    | succ n ih =>
        rw [List.take_add_one, hsubs n hn, superFoldSerial, List.foldl_append, ← superFoldSerial,
          ih (Nat.le_of_succ_le hn), Nat.succ_mul, List.take_add]
        calc p64Compose cpu (composeSpanRun cpu (spans.take (n * subSpans)))
              (composeSpanRun cpu ((spans.drop (n * subSpans)).take subSpans))
            = ((spans.drop (n * subSpans)).take subSpans).foldl (p64Compose cpu)
                (composeSpanRun cpu (spans.take (n * subSpans))) := compose_foldl _ _
          _ = composeSpanRun cpu (spans.take (n * subSpans) ++
                (spans.drop (n * subSpans)).take subSpans) := List.foldl_append.symm
  have hlen : edge / subSpans ≤ subs.length := by
    apply Nat.le_of_not_lt
    intro hlt
    have hout : subs[subs.length]? = none := List.getElem?_eq_none (Nat.le_refl _)
    rw [hsubs subs.length hlt] at hout
    cases hout
  rw [partialFold, min_eq_left hlen, hwhole _ (Nat.le_refl _), htail, composeSpanRun,
    composeSpanRun, ← List.foldl_append, ← List.take_add, Nat.div_add_mod']

/-! ## The three folds -/

/-- The super-chunk folds are serial chains: of sixteen leaves each for a pair, of all step maps
for the forest, and of the records before the edge for a partial. -/
theorem folds_are_serial (cpu : Cpu) :
    (∀ leaves : List P64, leaves.length = 2 * superSubs →
      superFoldPair cpu leaves = some ![(leaves.take superSubs).foldl (p64Compose cpu) P64.identity,
        (leaves.drop superSubs).foldl (p64Compose cpu) P64.identity]) ∧
      (∀ steps : List P64, (∀ p ∈ steps, StepMap p) →
        chainVerifyForest cpu steps = steps.foldl (p64Compose cpu) P64.identity) ∧
      ∀ (spans subs tailSpans : List P64) (edge : ℕ),
        (∀ k < edge / subSpans, subs[k]? = some
          (((spans.drop (k * subSpans)).take subSpans).foldl (p64Compose cpu) P64.identity)) →
        tailSpans = spans.drop (edge / subSpans * subSpans) →
        partialFold cpu subs tailSpans edge =
          (spans.take edge).foldl (p64Compose cpu) P64.identity := by
  refine ⟨?_, fun steps h => chainVerifyForest_eq h, ?_⟩
  · intro leaves h
    have hdrop : (leaves.drop superSubs).take superSubs = leaves.drop superSubs := by
      apply List.take_of_length_le
      rw [List.length_drop, h, Nat.two_mul, Nat.add_sub_cancel]
    rw [superFoldPair_eq h]
    apply congrArg some
    funext k
    fin_cases k
    · rfl
    · exact congrArg (superFoldSerial cpu) hdrop
  · exact fun spans subs tailSpans edge hsubs htail => partialFold_eq hsubs htail

/-- A pair of super-chunks of price setters, a chain longer than one chunk of the forest, and an
edge one record after a whole sub-record. -/
theorem folds_are_serial_at :
    let cpu : Cpu := ⟨true, true, true⟩
    let r : P64 :=
      { P64.identity with c := 2, v := 3, px := 7, tag := 1, deg := 1, cnt := 1, flg := 1 }
    superFoldPair cpu (List.replicate 32 r) =
        some ![(List.replicate 16 r).foldl (p64Compose cpu) P64.identity,
          (List.replicate 16 r).foldl (p64Compose cpu) P64.identity] ∧
      chainVerifyForest cpu (List.replicate 33 (hashOnly (2, 3))) =
        (List.replicate 33 (hashOnly (2, 3))).foldl (p64Compose cpu) P64.identity ∧
      partialFold cpu [(List.replicate 64 r).foldl (p64Compose cpu) P64.identity] [r] 65 =
        (List.replicate 65 r).foldl (p64Compose cpu) P64.identity := by
  intro cpu r
  obtain ⟨hpair, hforest, hpartial⟩ := folds_are_serial cpu
  refine ⟨hpair (List.replicate 32 r) rfl, ?_, ?_⟩
  · apply hforest
    intro p hp
    rw [List.eq_of_mem_replicate hp]
    exact hashOnly_stepMap (2, 3)
  · apply hpartial (List.replicate 65 r)
    · intro k hk
      obtain rfl : k = 0 := Nat.lt_one_iff.mp hk
      rfl
    · rfl

end HftProj.Testkit.SuperFold
