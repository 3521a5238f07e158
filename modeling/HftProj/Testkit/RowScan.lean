import HftProj.Testkit.OrderScan

/-!
# The order scan over words

The row-ops as the code holds them: eight words a row, a mask a word of zeros or of ones. The
scan runs over an array of rows, over eight columns, or over the columns eight rows at a time.
-/

namespace HftProj.Testkit.RowScan

open HftProj.Lib
open OrderScan (Lanes)

/-- A row-op of eight words. -/
@[ext]
structure RowOp where
  f : BitVec 64
  m : Lanes (BitVec 64)
  b : Lanes (BitVec 64)
  dead : BitVec 64

def ROWOP_IDENTITY : RowOp := ⟨0, fun _ => BitVec.allOnes 64, fun _ => 0, 0⟩

/-- `x` first, then `y`. -/
def rowopCompose (x y : RowOp) : RowOp where
  f := x.f ||| y.f
  m k := x.m k &&& y.m k
  b k := (if y.m k ≠ 0 then x.b k else 0) + y.b k
  dead := x.dead ||| y.dead

/-- A run start propagates itself. -/
def rowopSeg (x y : RowOp) : RowOp := if y.f ≠ 0 then y else rowopCompose x y

/-- The scan over the rows. -/
def orderScan (e : List RowOp) : List RowOp :=
  (List.range e.length).map
    (PrefixScan.sweep rowopSeg e.length 1 fun i => e.getD i ROWOP_IDENTITY)

/-! ## The columns -/

def SCAN_B_MAX : ℕ := 512

/-- Eight columns and the number of live rows. -/
structure ScanSoa where
  f : ℕ → BitVec 64
  m : Lanes (ℕ → BitVec 64)
  b : Lanes (ℕ → BitVec 64)
  dead : ℕ → BitVec 64
  len : ℕ

namespace ScanSoa

/-- The rows in the columns of a full-sized batch, clamped to its capacity. -/
def load (rows : List RowOp) : ScanSoa :=
  let row := fun i => (rows.take SCAN_B_MAX).getD i ROWOP_IDENTITY
  { f := fun i => (row i).f
    m := fun k i => (row i).m k
    b := fun k i => (row i).b k
    dead := fun i => (row i).dead
    len := min rows.length SCAN_B_MAX }

def row (s : ScanSoa) (i : ℕ) : RowOp := ⟨s.f i, fun k => s.m k i, fun k => s.b k i, s.dead i⟩

def store (s : ScanSoa) : List RowOp := (List.range s.len).map s.row

/-- One lane of the column passes at `hi`. -/
def lane (lo hi : ℕ) (yf : BitVec 64) (s : ScanSoa) (k : Fin 3) : ScanSoa :=
  let xm := s.m k lo
  let ym := s.m k hi
  let xb := s.b k lo
  let yb := s.b k hi
  { s with
    m := Function.update s.m k
      (Function.update (s.m k) hi (if yf ≠ 0 then ym else xm &&& ym))
    b := Function.update s.b k
      (Function.update (s.b k) hi
        (if yf ≠ 0 then yb else (if ym ≠ 0 then xb else 0) + yb)) }

/-- The column passes at one row. -/
def step (d hi : ℕ) (s : ScanSoa) : ScanSoa :=
  let yf := s.f hi
  let s := [0, 1, 2].foldl (lane (hi - d) hi yf) s
  if yf = 0 then
    { s with
      f := Function.update s.f hi (s.f (hi - d) ||| s.f hi)
      dead := Function.update s.dead hi (s.dead (hi - d) ||| s.dead hi) }
  else s

/-- One level of the column scan, from the row before `i` down. -/
@[grind =]
def level (d : ℕ) : ℕ → ScanSoa → ScanSoa
  | 0, s => s
  | i + 1, s => if d < i + 1 then level d i (s.step d i) else s

/-- The levels, from a stride on, over any way to run one. -/
@[grind =]
def sweep (lvl : ℕ → ℕ → ScanSoa → ScanSoa) (n d : ℕ) (s : ScanSoa) : ScanSoa :=
  if 0 < d ∧ d < n then sweep lvl n (2 * d) (lvl d n s) else s
termination_by n - d

/-- Eight words of a column from a row on, loaded into a register. -/
def loadu (col : ℕ → BitVec 64) (i : ℕ) : Fin 8 → BitVec 64 := fun l => col (i + l)

/-- A register stored into a column from a row on. -/
def storeu (col : ℕ → BitVec 64) (i : ℕ) (v : Fin 8 → BitVec 64) : ℕ → BitVec 64 := fun p =>
  if h : i ≤ p ∧ p < i + 8 then v ⟨p - i, by omega⟩ else col p

/-- A masked move: the second operand where the mask is set. -/
def maskMov (src : Fin 8 → BitVec 64) (mask : Fin 8 → Bool) (a : Fin 8 → BitVec 64) :
    Fin 8 → BitVec 64 := fun l => if mask l then a l else src l

/-- One lane of a group's passes: every load comes before its field's store. -/
def groupLane (d i : ℕ) (kmask : Fin 8 → Bool) (s : ScanSoa) (k : Fin 3) : ScanSoa :=
  let x := loadu (s.m k) (i - d)
  let y := loadu (s.m k) i
  let xb := loadu (s.b k) (i - d)
  let yb := loadu (s.b k) i
  let bm l := y l ≠ 0
  let blended := maskMov (fun _ => 0) (fun l => bm l) xb
  { s with
    m := Function.update s.m k
      (storeu (s.m k) i (maskMov (fun l => x l &&& y l) kmask y))
    b := Function.update s.b k
      (storeu (s.b k) i (maskMov (fun l => blended l + yb l) kmask yb)) }

/-- The passes over the eight rows from `i` on. -/
def group (d i : ℕ) (s : ScanSoa) : ScanSoa :=
  let yf := loadu s.f i
  let kmask l : Bool := yf l ≠ 0
  let s := [0, 1, 2].foldl (groupLane d i kmask) s
  let xf := loadu s.f (i - d)
  let xd := loadu s.dead (i - d)
  let yd := loadu s.dead i
  { s with
    f := storeu s.f i (maskMov (fun l => xf l ||| yf l) kmask yf)
    dead := storeu s.dead i (maskMov (fun l => xd l ||| yd l) kmask yd) }

/-- One level of the wide scan: groups of eight from the top down, single rows at the bottom. -/
@[grind =]
def levelAvx512 (d top : ℕ) (s : ScanSoa) : ScanSoa :=
  if d < top then
    if 8 ≤ top - d then levelAvx512 d (top - 8) (s.group d (top - 8))
    else level d top s
  else s
termination_by top

end ScanSoa

/-- The scalar scan over the columns. -/
def orderScanSoa (s : ScanSoa) : ScanSoa := ScanSoa.sweep ScanSoa.level s.len 1 s

/-- The wide scan over the columns. -/
def orderScanSoaAvx512 (s : ScanSoa) : ScanSoa := ScanSoa.sweep ScanSoa.levelAvx512 s.len 1 s

/-! ## The columns as rows -/

namespace ScanSoa

variable {s : ScanSoa} {d i top p : ℕ}

theorem lanes_eq (lo hi : ℕ) (yf : BitVec 64) (s : ScanSoa) :
    let s' := [0, 1, 2].foldl (lane lo hi yf) s
    (∀ k, s'.m k = Function.update (s.m k) hi
        (if yf ≠ 0 then s.m k hi else s.m k lo &&& s.m k hi)) ∧
      (∀ k, s'.b k = Function.update (s.b k) hi
        (if yf ≠ 0 then s.b k hi else (if s.m k hi ≠ 0 then s.b k lo else 0) + s.b k hi)) ∧
      s'.f = s.f ∧ s'.dead = s.dead ∧ s'.len = s.len := by
  refine ⟨fun k => ?_, fun k => ?_, rfl, rfl, rfl⟩
  · fin_cases k <;> rfl
  · fin_cases k <;> rfl

/-- The passes at one row change that row only. -/
theorem row_step (hd : 0 < d) (hi : d ≤ i) :
    (s.step d i).row p =
      if p = i then rowopSeg (s.row (i - d)) (s.row i) else s.row p := by
  obtain ⟨hm, hb, hf, hdead, -⟩ := lanes_eq (i - d) i (s.f i) s
  have hlow : i - d ≠ i := by omega
  dsimp only [step]
  generalize [0, 1, 2].foldl (lane (i - d) i (s.f i)) s = t at hm hb hf hdead ⊢
  by_cases hp : p = i
  · subst hp
    rw [if_pos rfl, rowopSeg]
    by_cases hzero : s.f p = 0
    · have hrow : ¬ (s.row p).f ≠ 0 := not_not.mpr hzero
      rw [if_pos hzero, if_neg hrow]
      simp only [row, rowopCompose, hm, hb, hf, hdead, Function.update_self, hzero, ne_eq,
        not_true_eq_false, if_false]
    · have hrow : (s.row p).f ≠ 0 := hzero
      rw [if_neg hzero, if_pos hrow]
      simp only [row, hm, hb, hf, hdead, Function.update_self, ne_eq, hzero, not_false_eq_true,
        if_true]
  · rw [if_neg hp]
    split <;> simp only [row, hm, hb, hf, hdead, Function.update_of_ne hp]

theorem step_len : (s.step d i).len = s.len := by
  rw [step]
  split <;> rfl

/-- A level of the column scan is a level of the row scan. -/
theorem level_row (hd : 0 < d) : (level d i s).row = PrefixScan.level rowopSeg d i s.row := by
  induction i generalizing s with
  | zero => rfl
  | succ i ih =>
      rw [level, PrefixScan.level]
      split
      · rename_i hlt
        rw [ih]
        congr 1
        funext p
        rw [row_step hd (by omega), Function.update_apply]
      · rfl

theorem storeu_in {col : ℕ → BitVec 64} {v : Fin 8 → BitVec 64} (h : i ≤ p ∧ p < i + 8) :
    storeu col i v p = v ⟨p - i, by omega⟩ := dif_pos h

theorem storeu_out {col : ℕ → BitVec 64} {v : Fin 8 → BitVec 64} (h : ¬ (i ≤ p ∧ p < i + 8)) :
    storeu col i v p = col p := dif_neg h

theorem groupLanes_eq (d i : ℕ) (kmask : Fin 8 → Bool) (s : ScanSoa) :
    let s' := [0, 1, 2].foldl (groupLane d i kmask) s
    (∀ k, s'.m k = storeu (s.m k) i (maskMov
        (fun l => loadu (s.m k) (i - d) l &&& loadu (s.m k) i l) kmask (loadu (s.m k) i))) ∧
      (∀ k, s'.b k = storeu (s.b k) i (maskMov
        (fun l => maskMov (fun _ => 0) (fun l => loadu (s.m k) i l ≠ 0)
          (loadu (s.b k) (i - d)) l + loadu (s.b k) i l) kmask (loadu (s.b k) i))) ∧
      s'.f = s.f ∧ s'.dead = s.dead ∧ s'.len = s.len := by
  refine ⟨fun k => ?_, fun k => ?_, rfl, rfl, rfl⟩
  · fin_cases k <;> rfl
  · fin_cases k <;> rfl

/-- The rows of a group, each read off the rows before the group's stores. -/
theorem row_group (hi : d ≤ i) :
    (s.group d i).row p =
      if i ≤ p ∧ p < i + 8 then rowopSeg (s.row (p - d)) (s.row p) else s.row p := by
  obtain ⟨hm, hb, hf, hdead, -⟩ := groupLanes_eq d i (fun l => loadu s.f i l ≠ 0) s
  dsimp only [group]
  generalize [0, 1, 2].foldl (groupLane d i fun l => loadu s.f i l ≠ 0) s = t at hm hb hf hdead ⊢
  split
  · rename_i hin
    have hlow : i - d + (p - i) = p - d := by omega
    have hhigh : i + (p - i) = p := by omega
    rw [rowopSeg]
    by_cases hzero : s.f p = 0
    · have hrow : ¬ (s.row p).f ≠ 0 := not_not.mpr hzero
      rw [if_neg hrow]
      simp [row, rowopCompose, hm, hb, hf, hdead, storeu_in hin, maskMov, loadu, hlow, hhigh,
        hzero]
    · have hrow : (s.row p).f ≠ 0 := hzero
      have hflag : s.f p ≠ 0#64 := hzero
      rw [if_pos hrow]
      simp [row, hm, hb, hf, hdead, storeu_in hin, maskMov, loadu, hhigh, hflag]
  · rename_i hout
    simp only [row, hm, hb, hf, hdead, storeu_out hout]

theorem group_len : (s.group d i).len = s.len := rfl

/-- A level of the wide scan is a level of the row scan. -/
theorem levelAvx512_row (hd : 0 < d) :
    (levelAvx512 d top s).row = PrefixScan.level rowopSeg d top s.row := by
  induction top, s using levelAvx512.induct d with
  | case1 top s hmore hgroup ih =>
      rw [levelAvx512, if_pos hmore, if_pos hgroup, ih]
      funext p
      rw [PrefixScan.level_eq hd, PrefixScan.level_eq hd, row_group (by omega),
        row_group (by omega)]
      -- a row below the group reads rows below the group, which its stores leave alone
      split_ifs <;> first | rfl | omega
  | case2 top s hmore hfew => rw [levelAvx512, if_pos hmore, if_neg hfew, level_row hd]
  | case3 top s hdone =>
      rw [levelAvx512, if_neg hdone]
      funext p
      rw [PrefixScan.level_eq hd, if_neg (by omega)]

/-- The levels of either column scan are the levels of the row scan. -/
theorem sweep_row {lvl : ℕ → ℕ → ScanSoa → ScanSoa} {n : ℕ}
    (hlvl : ∀ d i s, 0 < d → (lvl d i s).row = PrefixScan.level rowopSeg d i s.row) :
    (sweep lvl n d s).row = PrefixScan.sweep rowopSeg n d s.row := by
  induction d, s using sweep.induct lvl n with
  | case1 d s hmore ih =>
      rw [sweep, if_pos hmore, ih, hlvl d n s hmore.1, PrefixScan.sweep.eq_def _ _ d, if_pos hmore]
  | case2 d s hdone => rw [sweep, if_neg hdone, PrefixScan.sweep, if_neg hdone]

theorem level_len : (level d i s).len = s.len := by
  induction i generalizing s with
  | zero => rfl
  | succ i ih =>
      rw [level]
      split
      · rw [ih, step_len]
      · rfl

theorem levelAvx512_len : (levelAvx512 d top s).len = s.len := by
  induction top, s using levelAvx512.induct d with
  | case1 top s hmore hgroup ih => rw [levelAvx512, if_pos hmore, if_pos hgroup, ih, group_len]
  | case2 top s hmore hfew => rw [levelAvx512, if_pos hmore, if_neg hfew, level_len]
  | case3 top s hdone => rw [levelAvx512, if_neg hdone]

theorem sweep_len {lvl : ℕ → ℕ → ScanSoa → ScanSoa} {n : ℕ}
    (hlvl : ∀ d i s, (lvl d i s).len = s.len) : (sweep lvl n d s).len = s.len := by
  induction d, s using sweep.induct lvl n with
  | case1 d s hmore ih => rw [sweep, if_pos hmore, ih, hlvl]
  | case2 d s hdone => rw [sweep, if_neg hdone]

end ScanSoa

/-! ## Legal masks -/

/-- Every mask keeps all of its coordinate or none of it. -/
def RowOp.Legal (r : RowOp) : Prop := ∀ k, r.m k = 0 ∨ r.m k = BitVec.allOnes 64

theorem legal_identity : ROWOP_IDENTITY.Legal := fun _ => Or.inr rfl

section Laws

variable {x y z : RowOp}

theorem RowOp.Legal.compose (hx : x.Legal) (hy : y.Legal) : (rowopCompose x y).Legal := by
  intro k
  change x.m k &&& y.m k = 0 ∨ x.m k &&& y.m k = BitVec.allOnes 64
  rcases hx k with hxk | hxk
  · rw [hxk]
    exact Or.inl BitVec.zero_and
  · rw [hxk, BitVec.allOnes_and]
    exact hy k

/-- A composed mask keeps a coordinate when both masks do. -/
theorem mask_ne_zero (hy : y.Legal) (z : RowOp) (k : Fin 3) :
    y.m k &&& z.m k ≠ 0 ↔ y.m k ≠ 0 ∧ z.m k ≠ 0 := by
  rcases hy k with hyk | hyk
  · have hzero : (0 : BitVec 64) &&& z.m k = 0 := BitVec.zero_and
    rw [hyk, hzero]
    exact ⟨fun h => absurd rfl h, fun h => absurd rfl h.1⟩
  · have hones : BitVec.allOnes 64 ≠ 0 := by decide
    rw [hyk, BitVec.allOnes_and]
    exact ⟨fun h => ⟨hones, h⟩, fun h => h.2⟩

theorem rowopCompose_assoc (hy : y.Legal) :
    rowopCompose (rowopCompose x y) z = rowopCompose x (rowopCompose y z) := by
  ext1
  · exact BitVec.or_assoc x.f y.f z.f
  · funext k
    exact BitVec.and_assoc (x.m k) (y.m k) (z.m k)
  · funext k
    have hmask := mask_ne_zero hy z k
    change (if z.m k ≠ 0 then (if y.m k ≠ 0 then x.b k else 0) + y.b k else 0) + z.b k =
      (if y.m k &&& z.m k ≠ 0 then x.b k else 0) + ((if z.m k ≠ 0 then y.b k else 0) + z.b k)
    by_cases hzk : z.m k ≠ 0
    · rw [if_pos hzk, if_pos hzk, BitVec.add_assoc]
      congr 1
      exact if_congr (hmask.trans (and_iff_left hzk)).symm rfl rfl
    · rw [if_neg hzk, if_neg hzk, if_neg fun h => hzk (hmask.mp h).2]
      exact (congrArg (0 + ·) (BitVec.zero_add (z.b k))).symm
  · exact BitVec.or_assoc x.dead y.dead z.dead

theorem rowopCompose_identity (x : RowOp) : rowopCompose x ROWOP_IDENTITY = x := by
  have hones : BitVec.allOnes 64 ≠ 0 := by decide
  ext1
  · exact BitVec.or_zero
  · funext k
    exact BitVec.and_allOnes
  · funext k
    change (if BitVec.allOnes 64 ≠ 0 then x.b k else 0) + 0 = x.b k
    rw [if_pos hones]
    exact BitVec.add_zero (x.b k)
  · exact BitVec.or_zero

theorem identity_rowopCompose (x : RowOp) : rowopCompose ROWOP_IDENTITY x = x := by
  ext1
  · exact BitVec.zero_or
  · funext k
    exact BitVec.allOnes_and
  · funext k
    change (if x.m k ≠ 0 then 0 else 0) + x.b k = x.b k
    rw [ite_self]
    exact BitVec.zero_add (x.b k)
  · exact BitVec.zero_or

/-- The run-start test of the scan. -/
def starts (r : RowOp) : Bool := r.f ≠ 0

theorem starts_compose : starts (rowopCompose x y) = (starts x || starts y) := by
  have hor : x.f ||| y.f = 0 ↔ x.f = 0 ∧ y.f = 0 := BitVec.or_eq_zero_iff
  change decide (¬ x.f ||| y.f = 0) = (decide (¬ x.f = 0) || decide (¬ y.f = 0))
  rw [← Bool.decide_or, decide_eq_decide, hor, not_and_or]

theorem rowopSeg_eq_cut : rowopSeg = PrefixScan.cut rowopCompose starts := by
  funext x y
  simp only [rowopSeg, PrefixScan.cut, starts, decide_eq_true_eq]

end Laws

/-! ## The scan of legal rows -/

/-- A row-op with legal masks. -/
abbrev LegalRow := { r : RowOp // r.Legal }

/-- Legal rows compose to a legal row. -/
def composeLegal (x y : LegalRow) : LegalRow := ⟨rowopCompose x y, x.2.compose y.2⟩

theorem val_composeLegal (x y : LegalRow) : (composeLegal x y).val = rowopCompose x y := rfl

/-- A legal row that begins a run. -/
def startsLegal (x : LegalRow) : Bool := starts x

theorem composeLegal_assoc (x y z : LegalRow) :
    composeLegal (composeLegal x y) z = composeLegal x (composeLegal y z) :=
  Subtype.ext (rowopCompose_assoc y.2)

theorem segLegal_assoc (x y z : LegalRow) :
    PrefixScan.cut composeLegal startsLegal (PrefixScan.cut composeLegal startsLegal x y) z =
      PrefixScan.cut composeLegal startsLegal x (PrefixScan.cut composeLegal startsLegal y z) :=
  PrefixScan.cut_assoc composeLegal_assoc (fun _ _ => starts_compose) x y z

theorem val_segLegal (x y : LegalRow) :
    (PrefixScan.cut composeLegal startsLegal x y : LegalRow).val = rowopSeg x y := by
  rw [rowopSeg_eq_cut, PrefixScan.cut, PrefixScan.cut, apply_ite Subtype.val]
  rfl

theorem rowopSeg_assoc {x y z : RowOp} (hx : x.Legal) (hy : y.Legal) (hz : z.Legal) :
    rowopSeg (rowopSeg x y) z = rowopSeg x (rowopSeg y z) := by
  have hassoc := congrArg Subtype.val (segLegal_assoc ⟨x, hx⟩ ⟨y, hy⟩ ⟨z, hz⟩)
  simpa only [val_segLegal] using hassoc

/-- The rows from the nearest run start up to a position, composed from left to right. -/
def runComposite (e : ℕ → RowOp) (i : ℕ) : RowOp :=
  PrefixScan.upTo rowopCompose e (PrefixScan.startOf starts e i) i

/-- The scan leaves in every position the composite of its run so far. -/
theorem sweep_legal {e : ℕ → RowOp} (he : ∀ i, (e i).Legal) (n : ℕ) :
    ∀ i < n, PrefixScan.sweep rowopSeg n 1 e i = runComposite e i := by
  intro i hi
  have hscan := PrefixScan.sweep_eq segLegal_assoc (a := fun k => (⟨e k, he k⟩ : LegalRow)) i hi
  have hmap : (fun k => (PrefixScan.sweep (PrefixScan.cut composeLegal startsLegal) n 1
      (fun k => (⟨e k, he k⟩ : LegalRow)) k).val) = PrefixScan.sweep rowopSeg n 1 e :=
    PrefixScan.sweep_map (φ := Subtype.val) val_segLegal
  rw [← congrFun hmap i, hscan, PrefixScan.upTo_cut_eq, PrefixScan.upTo,
    PrefixScan.span_map (φ := Subtype.val) val_composeLegal]
  exact congrArg (fun j => PrefixScan.upTo rowopCompose e j i)
    (PrefixScan.startOf_comp Subtype.val (fun k => (⟨e k, he k⟩ : LegalRow)) i)

/-- Every position's run composed from left to right. -/
def sequentialScan (rows : List RowOp) : List RowOp :=
  (List.range rows.length).map (runComposite fun i => rows.getD i ROWOP_IDENTITY)

section Lists

variable {rows : List RowOp}

theorem legal_getD (h : ∀ r ∈ rows, r.Legal) (i : ℕ) : (rows.getD i ROWOP_IDENTITY).Legal := by
  rw [List.getD_eq_getElem?_getD]
  cases hi : rows[i]? with
  | none => exact legal_identity
  | some r => exact h r (List.mem_of_getElem? hi)

theorem orderScan_eq (h : ∀ r ∈ rows, r.Legal) : orderScan rows = sequentialScan rows := by
  apply List.map_congr_left
  intro i hi
  exact sweep_legal (legal_getD h) rows.length i (List.mem_range.mp hi)

theorem load_row (hlen : rows.length ≤ SCAN_B_MAX) :
    (ScanSoa.load rows).row = fun i => rows.getD i ROWOP_IDENTITY := by
  funext i
  rw [← List.take_of_length_le hlen]
  simp only [ScanSoa.load, List.take_of_length_le hlen]
  rfl

theorem load_len (hlen : rows.length ≤ SCAN_B_MAX) : (ScanSoa.load rows).len = rows.length :=
  Nat.min_eq_left hlen

/-- A column scan whose levels are those of the row scan. -/
theorem soa_eq (h : ∀ r ∈ rows, r.Legal) (hlen : rows.length ≤ SCAN_B_MAX) {s : ScanSoa}
    (hrow : s.row = PrefixScan.sweep rowopSeg rows.length 1 (ScanSoa.load rows).row)
    (hslen : s.len = (ScanSoa.load rows).len) : s.store = sequentialScan rows := by
  rw [ScanSoa.store, hslen, load_len hlen, hrow, load_row hlen]
  exact orderScan_eq h

/-- All three scans leave in every position the composite of the rows from the nearest run start
on; the composition is a monoid on legal rows, and so is its segmented form associative. -/
theorem scan_is_sequential (h : ∀ r ∈ rows, r.Legal) :
    orderScan rows = sequentialScan rows ∧
      (rows.length ≤ SCAN_B_MAX →
        (orderScanSoa (ScanSoa.load rows)).store = sequentialScan rows ∧
          (orderScanSoaAvx512 (ScanSoa.load rows)).store = sequentialScan rows) ∧
      (∀ x y z : RowOp, x.Legal → y.Legal → z.Legal →
        rowopCompose (rowopCompose x y) z = rowopCompose x (rowopCompose y z) ∧
          rowopSeg (rowopSeg x y) z = rowopSeg x (rowopSeg y z)) ∧
      ∀ x, rowopCompose x ROWOP_IDENTITY = x ∧ rowopCompose ROWOP_IDENTITY x = x := by
  refine ⟨orderScan_eq h, fun hlen => ⟨?_, ?_⟩, ?_, ?_⟩
  · apply soa_eq h hlen
    · rw [orderScanSoa, load_len hlen]
      exact ScanSoa.sweep_row fun d i s hd => ScanSoa.level_row hd
    · exact ScanSoa.sweep_len fun d i s => ScanSoa.level_len
  · apply soa_eq h hlen
    · rw [orderScanSoaAvx512, load_len hlen]
      exact ScanSoa.sweep_row fun d i s hd => ScanSoa.levelAvx512_row hd
    · exact ScanSoa.sweep_len fun d i s => ScanSoa.levelAvx512_len
  · intro x y z hx hy hz
    exact ⟨rowopCompose_assoc hy, rowopSeg_assoc hx hy hz⟩
  · intro x
    exact ⟨rowopCompose_identity x, identity_rowopCompose x⟩

end Lists

/-! ## The flags as booleans -/

/-- The row-op behind the words. -/
def RowOp.view (r : RowOp) : OrderScan.RowOp := ⟨starts r, fun k => r.m k ≠ 0, r.b, r.dead ≠ 0⟩

/-- The composition of the words is the composition of the row-ops behind them. -/
theorem view_compose {x y : RowOp} (hx : x.Legal) :
    (rowopCompose x y).view = OrderScan.rowopCompose x.view y.view := by
  have hdead : x.dead ||| y.dead = 0 ↔ x.dead = 0 ∧ y.dead = 0 := BitVec.or_eq_zero_iff
  rw [OrderScan.RowOp.ext_iff']
  refine ⟨starts_compose, funext fun k => ?_, funext fun k => ?_, ?_⟩
  · change decide (x.m k &&& y.m k ≠ 0) = (decide (x.m k ≠ 0) && decide (y.m k ≠ 0))
    rw [← Bool.decide_and, decide_eq_decide]
    exact mask_ne_zero hx y k
  · change (if y.m k ≠ 0 then x.b k else 0) + y.b k =
      (if decide (y.m k ≠ 0) = true then x.b k else 0) + y.b k
    simp only [decide_eq_true_eq]
  · change decide (¬ x.dead ||| y.dead = 0) = (decide (¬ x.dead = 0) || decide (¬ y.dead = 0))
    rw [← Bool.decide_or, decide_eq_decide, hdead, not_and_or]

theorem scan_is_sequential_two :
    let rows : List RowOp := [⟨0, fun _ => 0, fun _ => 5, 0⟩,
      ⟨0, fun _ => BitVec.allOnes 64, fun _ => 3, 0⟩]
    (orderScanSoaAvx512 (ScanSoa.load rows)).store = sequentialScan rows := by
  refine ((scan_is_sequential ?_).2.1 (by decide)).2
  intro r hr k
  rcases List.mem_cons.mp hr with rfl | hr
  · exact Or.inl rfl
  · rw [List.mem_singleton.mp hr]
    exact Or.inr rfl

end HftProj.Testkit.RowScan
