import HftProj.Lib.Segments
import HftProj.Testkit.SpanLanes
import HftProj.Testkit.SpanRecord

/-!
# Record trees

A list of records composes in order, one by one or in the bracketing of an in-place up-sweep.
The wide schedule takes four pairs of a level at a time, and the two-level tree folds runs of
chunk records first.
-/

namespace HftProj.Testkit.SpanField

open HftProj.Lib

section Trees

variable (cpu : Cpu)

/-- The serial chain from the first record on. -/
def serialFold : List P64 → P64
  | [] => P64.identity
  | r :: rs => rs.foldl (p64Compose cpu) r

/-- `tree_fold_p64`. -/
def treeFoldP64 (r : List P64) : P64 :=
  if r.length = 0 then P64.identity
  else if r.length = 1 then r.getD 0 P64.identity
  else UpSweep.sweep (p64Compose cpu) r.length 1 (fun i => r.getD i P64.identity) 0

/-- One composition of a batch, with the products already there. -/
def storePair (vres cres : Fin 4 → BitVec 64) (stride i : ℕ) (r : ℕ → P64) (m : Fin 4) : ℕ → P64 :=
  let ia := i + 2 * m * stride
  let ib := ia + stride
  let a := r ia
  let b := r ib
  Function.update r ia
    { v := vres m ^^^ b.v
      c := cres m
      db := a.db + b.db
      da := a.da + b.da
      px := (laterSetter a b).1
      tag := (laterSetter a b).2
      deg := a.deg + b.deg
      cnt := a.cnt + b.cnt
      flg := a.flg ||| b.flg }

/-- Four pairs of a level at once. -/
def batch4 (stride i : ℕ) (r : ℕ → P64) : ℕ → P64 :=
  let va m := (r (i + 2 * m * stride)).v
  let ca m := (r (i + 2 * m * stride)).c
  let cb m := (r (i + 2 * m * stride + stride)).c
  let vres := mulmod4x4 (fun m => va m) (fun m => cb m)
  let cres := mulmod4x4 (fun m => ca m) (fun m => cb m)
  [0, 1, 2, 3].foldl (storePair vres cres stride i) r

/-- One level of the wide schedule: batches while four pairs are left, then single pairs. -/
@[grind =]
def levelAvx512 (n stride i : ℕ) (r : ℕ → P64) : ℕ → P64 :=
  if 0 < stride ∧ i + 7 * stride < n then
    levelAvx512 n stride (i + 8 * stride) (batch4 stride i r)
  else UpSweep.level (p64Compose cpu) n stride i r
termination_by n - i

/-- The levels of the wide schedule. -/
@[grind =]
def sweepAvx512 (n stride : ℕ) (r : ℕ → P64) : ℕ → P64 :=
  if 0 < stride ∧ stride < n then sweepAvx512 n (2 * stride) (levelAvx512 cpu n stride 0 r) else r
termination_by n - stride

/-- `tree_fold_p64_avx512`. -/
def treeFoldP64Avx512 (r : List P64) : P64 :=
  if r.length < 2 then treeFoldP64 cpu r
  else sweepAvx512 cpu r.length 1 (fun i => r.getD i P64.identity) 0

/-- `tree_fold_p64_dispatch`. -/
def treeFoldP64Dispatch (r : List P64) : P64 :=
  if 8 ≤ r.length ∧ cpu.avx512f ∧ cpu.vpclmulqdq then treeFoldP64Avx512 cpu r
  else treeFoldP64 cpu r

/-- The state of `tree_fold_two_level`'s first loop. -/
structure Runs where
  subs : List P64
  acc : P64
  runLen : ℕ

/-- One record of the first level. -/
def Runs.step (run : ℕ) (s : Runs) (rec : R36) : Runs :=
  let acc := p64Compose cpu s.acc (P64.fromR36 cpu rec)
  if s.runLen + 1 = run then ⟨s.subs ++ [acc], P64.identity, 0⟩ else ⟨s.subs, acc, s.runLen + 1⟩

/-- `tree_fold_two_level`: it refuses an empty run length. -/
def treeFoldTwoLevel (r36s : List R36) (run : ℕ) : Option P64 :=
  if run = 0 then none
  else if r36s = [] then some P64.identity
  else
    let s := r36s.foldl (Runs.step cpu run) ⟨[], P64.identity, 0⟩
    some (treeFoldP64Dispatch cpu (if 0 < s.runLen then s.subs ++ [s.acc] else s.subs))

end Trees

variable {cpu : Cpu}

/-! ## The up-sweep -/

/-- A record that joins what came before it, if anything did. -/
def join (cpu : Cpu) : Option P64 → P64 → Option P64
  | none, b => some b
  | some a, b => some (p64Compose cpu a b)

theorem join_compose (h : Option P64) (a b : P64) :
    join cpu h (p64Compose cpu a b) = join cpu (join cpu h a) b := by
  cases h with
  | none => rfl
  | some x => exact congrArg some (p64Compose_assoc cpu x a b).symm

theorem foldl_join (x : P64) (rs : List P64) :
    rs.foldl (join cpu) (some x) = some (rs.foldl (p64Compose cpu) x) := by
  induction rs generalizing x with
  | nil => rfl
  | cons r rs ih => exact ih (p64Compose cpu x r)

/-- The up-sweep leaves the serial composite in the first entry. -/
theorem sweep_serial {r : List P64} (hr : r ≠ []) :
    UpSweep.sweep (p64Compose cpu) r.length 1 (fun i => r.getD i P64.identity) 0 =
      serialFold cpu r := by
  have hsweep := UpSweep.act_sweep (a := fun i => r.getD i P64.identity) (@join_compose cpu)
    (List.length_pos_iff.mpr hr) none
  rw [UpSweep.runFrom_eq_foldl none fun j hj => by simp [List.getElem?_eq_getElem hj]] at hsweep
  cases r with
  | nil => exact absurd rfl hr
  | cons x rs =>
      exact Option.some.inj (hsweep.trans (foldl_join x rs))

theorem treeFoldP64_serial (r : List P64) : treeFoldP64 cpu r = serialFold cpu r := by
  rw [treeFoldP64]
  split
  · rename_i hzero
    rw [List.length_eq_zero_iff.mp hzero, serialFold]
  · rename_i hne
    split
    · rename_i hone
      obtain ⟨x, rfl⟩ := List.length_eq_one_iff.mp hone
      rfl
    · exact sweep_serial fun hnil => hne (List.length_eq_zero_iff.mpr hnil)

/-! ## The wide schedule -/

/-- A pair composed where it stands. -/
def composePair (cpu : Cpu) (stride i : ℕ) (r : ℕ → P64) : ℕ → P64 :=
  Function.update r i (p64Compose cpu (r i) (r (i + stride)))

theorem composePair_ahead {stride i j : ℕ} (r : ℕ → P64) (h : i < j) :
    composePair cpu stride i r j = r j := Function.update_of_ne (Nat.ne_of_gt h) _ _

/-- A stored pair is its composition while the batch's operands are still in place. -/
theorem storePair_eq (cpu : Cpu) {stride i k : ℕ} {r r' : ℕ → P64} {m : Fin 4} (hk : i + 2 * m * stride = k)
    (hsame : ∀ j, k ≤ j → r' j = r j) :
    storePair
        (mulmod4x4 (fun m => (r (i + 2 * m * stride)).v)
          (fun m => (r (i + 2 * m * stride + stride)).c))
        (mulmod4x4 (fun m => (r (i + 2 * m * stride)).c)
          (fun m => (r (i + 2 * m * stride + stride)).c)) stride i r' m =
      composePair cpu stride k r' := by
  rw [storePair, composePair, mulmod4x4_eq cpu, mulmod4x4_eq cpu, hk, ← hsame _ (Nat.le_refl _),
    ← hsame _ (Nat.le_add_right _ stride)]
  rfl

/-- A batch is four compositions in order: none touches what a later one reads. -/
theorem batch4_eq {stride i : ℕ} (hpos : 0 < stride) (r : ℕ → P64) :
    batch4 stride i r =
      composePair cpu stride (i + 6 * stride) (composePair cpu stride (i + 4 * stride)
        (composePair cpu stride (i + 2 * stride) (composePair cpu stride i r))) := by
  have hone (j : ℕ) (hj : i < j) : composePair cpu stride i r j = r j := composePair_ahead r hj
  have htwo (j : ℕ) (hj : i + 2 * stride < j) :
      composePair cpu stride (i + 2 * stride) (composePair cpu stride i r) j = r j := by
    rw [composePair_ahead _ hj, hone j (by omega)]
  have hthree (j : ℕ) (hj : i + 4 * stride < j) :
      composePair cpu stride (i + 4 * stride) (composePair cpu stride (i + 2 * stride)
        (composePair cpu stride i r)) j = r j := by
    rw [composePair_ahead _ hj, htwo j (by omega)]
  have hfirst : i + 2 * (0 : Fin 4).val * stride = i := by simp
  simp only [batch4, List.foldl_cons, List.foldl_nil]
  rw [storePair_eq cpu hfirst fun j _ => rfl,
    storePair_eq cpu (k := i + 2 * stride) rfl fun j hj => hone j (by omega),
    storePair_eq cpu (k := i + 4 * stride) rfl fun j hj => htwo j (by omega),
    storePair_eq cpu (k := i + 6 * stride) rfl fun j hj => hthree j (by omega)]

theorem level_pair {n stride i : ℕ} {r : ℕ → P64} (hpos : 0 < stride) (hi : i + stride < n) :
    UpSweep.level (p64Compose cpu) n stride i r =
      UpSweep.level (p64Compose cpu) n stride (i + 2 * stride) (composePair cpu stride i r) := by
  rw [UpSweep.level, if_pos ⟨hpos, hi⟩, composePair]

theorem levelAvx512_eq (n stride i : ℕ) (r : ℕ → P64) :
    levelAvx512 cpu n stride i r = UpSweep.level (p64Compose cpu) n stride i r := by
  induction i, r using levelAvx512.induct n stride with
  | case1 i r hmore ih =>
      have hpos := hmore.1
      have h4 : i + 2 * stride + 2 * stride = i + 4 * stride := by omega
      have h6 : i + 4 * stride + 2 * stride = i + 6 * stride := by omega
      have h8 : i + 6 * stride + 2 * stride = i + 8 * stride := by omega
      rw [levelAvx512, if_pos hmore, ih, level_pair (i := i) hpos (by omega),
        level_pair (i := i + 2 * stride) hpos (by omega), h4,
        level_pair (i := i + 4 * stride) hpos (by omega), h6,
        level_pair (i := i + 6 * stride) hpos (by omega), h8, batch4_eq hpos]
  | case2 i r hdone => rw [levelAvx512, if_neg hdone]

theorem sweepAvx512_eq (n stride : ℕ) (r : ℕ → P64) :
    sweepAvx512 cpu n stride r = UpSweep.sweep (p64Compose cpu) n stride r := by
  induction stride, r using sweepAvx512.induct cpu n with
  | case1 stride r hmore ih =>
      rw [sweepAvx512, if_pos hmore, ih, levelAvx512_eq, UpSweep.sweep.eq_def _ _ stride,
        if_pos hmore]
  | case2 stride r hdone => rw [sweepAvx512, if_neg hdone, UpSweep.sweep, if_neg hdone]

theorem treeFoldP64Avx512_serial (r : List P64) :
    treeFoldP64Avx512 cpu r = serialFold cpu r := by
  rw [treeFoldP64Avx512]
  split
  · exact treeFoldP64_serial r
  · rename_i hlong
    rw [sweepAvx512_eq]
    apply sweep_serial
    intro hnil
    exact hlong (hnil ▸ Nat.succ_pos 1)

theorem treeFoldP64Dispatch_serial (r : List P64) :
    treeFoldP64Dispatch cpu r = serialFold cpu r := by
  rw [treeFoldP64Dispatch]
  split
  · exact treeFoldP64Avx512_serial r
  · exact treeFoldP64_serial r

/-! ## Runs -/

theorem clean_identity : P64.identity.Clean := fun _ => ⟨rfl, rfl⟩

/-- A composition is clean when its earlier record is. -/
theorem clean_compose {a b : P64} (ha : a.Clean) : (p64Compose cpu a b).Clean := by
  intro hunset
  obtain ⟨hau, hbu⟩ := not_or.mp fun h => hunset ((sets_compose cpu a b).mpr h)
  simp only [p64Compose, laterSetter_of_unset a b hbu]
  exact ha hau

theorem clean_foldl {a : P64} (ha : a.Clean) (rs : List P64) :
    (rs.foldl (p64Compose cpu) a).Clean := by
  induction rs generalizing a with
  | nil => exact ha
  | cons r rs ih => exact ih (clean_compose ha)

theorem serialFold_clean {rs : List P64} (h : ∀ r ∈ rs, r.Clean) :
    serialFold cpu rs = rs.foldl (p64Compose cpu) P64.identity := by
  cases rs with
  | nil => rfl
  | cons r rs =>
      rw [List.foldl_cons, (identity_p64Compose_iff cpu r).mpr (h r (List.mem_cons_self ..))]
      rfl

/-- A chain's start moves in front of the chain from the identity. -/
theorem compose_foldl (a : P64) (rs : List P64) :
    p64Compose cpu a (rs.foldl (p64Compose cpu) P64.identity) = rs.foldl (p64Compose cpu) a := by
  induction rs using List.reverseRecOn with
  | nil => exact p64Compose_identity cpu a
  | append_singleton rs r ih =>
      rw [List.foldl_append, List.foldl_append, List.foldl_cons, List.foldl_cons, List.foldl_nil,
        List.foldl_nil, ← ih, p64Compose_assoc]

/-- What the first level has finished: clean runs, whose chain is the records' so far. -/
structure Runs.Done (cpu : Cpu) (s : Runs) (recs : List R36) : Prop where
  clean : ∀ r ∈ s.subs, r.Clean
  acc_clean : s.acc.Clean
  acc_empty : s.runLen = 0 → s.acc = P64.identity
  chain : p64Compose cpu (s.subs.foldl (p64Compose cpu) P64.identity) s.acc =
    composeRecords cpu recs

theorem Runs.Done.step {s : Runs} {recs : List R36} (h : s.Done cpu recs) (run : ℕ) (rec : R36) :
    (s.step cpu run rec).Done cpu (recs ++ [rec]) := by
  have hclean := @clean_compose cpu _ (P64.fromR36 cpu rec) h.acc_clean
  have hchain : p64Compose cpu (s.subs.foldl (p64Compose cpu) P64.identity)
      (p64Compose cpu s.acc (P64.fromR36 cpu rec)) = composeRecords cpu (recs ++ [rec]) := by
    rw [← p64Compose_assoc, h.chain, composeRecords, composeRecords, List.foldl_append,
      List.foldl_cons, List.foldl_nil]
  rw [Runs.step]
  split
  · refine ⟨?_, clean_identity, fun _ => rfl, ?_⟩
    · intro r hr
      rcases List.mem_append.mp hr with hold | hnew
      · exact h.clean r hold
      · rw [List.mem_singleton.mp hnew]
        exact hclean
    · rw [p64Compose_identity, List.foldl_append, List.foldl_cons, List.foldl_nil]
      exact hchain
  · exact ⟨h.clean, hclean, fun hzero => absurd hzero (Nat.succ_ne_zero _), hchain⟩

theorem runs_done (run : ℕ) (recs : List R36) :
    (recs.foldl (Runs.step cpu run) ⟨[], P64.identity, 0⟩).Done cpu recs := by
  induction recs using List.reverseRecOn with
  | nil =>
      refine ⟨fun _ hr => absurd hr List.not_mem_nil, clean_identity, fun _ => rfl, ?_⟩
      exact p64Compose_identity cpu P64.identity
  | append_singleton recs rec ih =>
      rw [List.foldl_append, List.foldl_cons, List.foldl_nil]
      exact ih.step run rec

/-- Whatever the run length, the two-level tree is the record chain. -/
theorem treeFoldTwoLevel_eq (r36s : List R36) {run : ℕ} (hrun : 1 ≤ run) :
    treeFoldTwoLevel cpu r36s run = some (composeRecords cpu r36s) := by
  rw [treeFoldTwoLevel, if_neg (by omega)]
  split
  · rename_i hnil
    rw [hnil]
    rfl
  · have hdone := @runs_done cpu run r36s
    simp only [treeFoldP64Dispatch_serial]
    congr 1
    rw [← hdone.chain]
    split
    · rw [serialFold_clean, List.foldl_append, List.foldl_cons, List.foldl_nil]
      intro r hr
      rcases List.mem_append.mp hr with hold | hnew
      · exact hdone.clean r hold
      · rw [List.mem_singleton.mp hnew]
        exact hdone.acc_clean
    · rename_i hempty
      rw [serialFold_clean hdone.clean, hdone.acc_empty (by omega), p64Compose_identity]

/-! ## Every bracketing -/

/-- The composition is associative with a right identity, which is a left identity exactly on
clean records; every schedule of the trees returns the serial chain. -/
theorem trees_are_serial (cpu : Cpu) :
    (∀ a b c, p64Compose cpu (p64Compose cpu a b) c = p64Compose cpu a (p64Compose cpu b c)) ∧
      (∀ a, p64Compose cpu a P64.identity = a) ∧
      (∀ b : P64, p64Compose cpu P64.identity b = b ↔ b.Clean) ∧
      (∀ r : List P64,
        treeFoldP64 cpu r = serialFold cpu r ∧ treeFoldP64Avx512 cpu r = serialFold cpu r ∧
          treeFoldP64Dispatch cpu r = serialFold cpu r ∧
          ((∀ x ∈ r, x.Clean) → serialFold cpu r = r.foldl (p64Compose cpu) P64.identity)) ∧
      ∀ (r36s : List R36) (run : ℕ), 1 ≤ run →
        treeFoldTwoLevel cpu r36s run = some (composeRecords cpu r36s) := by
  refine ⟨p64Compose_assoc cpu, p64Compose_identity cpu, identity_p64Compose_iff cpu, ?_, ?_⟩
  · intro r
    exact ⟨treeFoldP64_serial r, treeFoldP64Avx512_serial r, treeFoldP64Dispatch_serial r,
      serialFold_clean⟩
  · exact fun r36s run hrun => treeFoldTwoLevel_eq r36s hrun

/-- A price without a setter is lost behind the identity. -/
theorem identity_drops_unset_price :
    let b : P64 := { P64.identity with px := 7 }
    p64Compose ⟨false, false, false⟩ P64.identity b = P64.identity ∧ P64.identity ≠ b := by
  decide

end HftProj.Testkit.SpanField
