import HftProj.Lib.Literals
import HftProj.Lib.PrefixScan
import Mathlib.Data.BitVec
import Mathlib.Data.Fin.VecNotation
import Mathlib.Tactic.FinCases

/-!
# The order scan

Row-ops: affine maps on the register row (bid selector, price and locate, remaining quantity)
over 64-bit words, with a diagonal of keep-or-overwrite masks. A row-op carries a run-start
flag and the sticky mark of a delete. The scan composes them within each run, and the emit
stage evaluates a position's prefix on the state that its run was entered with.
-/

namespace HftProj.Testkit.OrderScan

open HftProj.Lib

/-- The three coordinates of a register row. -/
abbrev Lanes (α : Type) := Fin 3 → α

/-- A mask is all ones (`true`, keep the coordinate) or zero (`false`, overwrite it); the flags
are 0 or 1. -/
structure RowOp where
  f : Bool
  m : Lanes Bool
  b : Lanes (BitVec 64)
  dead : Bool

theorem RowOp.ext_iff' {x y : RowOp} :
    x = y ↔ x.f = y.f ∧ x.m = y.m ∧ x.b = y.b ∧ x.dead = y.dead := by
  cases x
  cases y
  simp

def ROWOP_IDENTITY : RowOp := ⟨false, fun _ => true, fun _ => 0, false⟩

/-- `x` first, then `y`. -/
def rowopCompose (x y : RowOp) : RowOp where
  f := x.f || y.f
  m k := x.m k && y.m k
  b k := (if y.m k then x.b k else 0) + y.b k
  dead := x.dead || y.dead

/-- A run start propagates itself. -/
def rowopSeg (x y : RowOp) : RowOp := if y.f then y else rowopCompose x y

/-- The inclusive segmented scan. -/
def orderScan (n : ℕ) (e : ℕ → RowOp) : ℕ → RowOp := PrefixScan.sweep rowopSeg n 1 e

theorem rowopCompose_assoc (x y z : RowOp) :
    rowopCompose (rowopCompose x y) z = rowopCompose x (rowopCompose y z) := by
  rw [RowOp.ext_iff']
  refine ⟨Bool.or_assoc .., funext fun k => Bool.and_assoc .., funext fun k => ?_,
    Bool.or_assoc ..⟩
  show (if z.m k then (if y.m k then x.b k else 0) + y.b k else 0) + z.b k =
    (if y.m k && z.m k then x.b k else 0) + ((if z.m k then y.b k else 0) + z.b k)
  cases y.m k <;> cases z.m k <;> simp [add_assoc]

theorem identity_compose (x : RowOp) : rowopCompose ROWOP_IDENTITY x = x := by
  rw [RowOp.ext_iff']
  refine ⟨Bool.false_or _, funext fun k => Bool.true_and _, funext fun k => ?_, Bool.false_or _⟩
  show (if x.m k then (0 : BitVec 64) else 0) + x.b k = x.b k
  rw [ite_self, zero_add]

/-- The exclusive prefix of a position within its run. -/
def prefixAt (e : ℕ → RowOp) : ℕ → RowOp :=
  PrefixScan.before rowopCompose RowOp.f ROWOP_IDENTITY e

/-- The scan leaves the prefix and the row itself in every position. -/
theorem orderScan_eq (n : ℕ) (e : ℕ → RowOp) :
    ∀ i < n, orderScan n e i = rowopCompose (prefixAt e i) (e i) := by
  have hseg : rowopSeg = PrefixScan.cut rowopCompose RowOp.f := rfl
  intro i hi
  rw [orderScan, hseg, PrefixScan.sweep_eq (PrefixScan.cut_assoc rowopCompose_assoc
    fun _ _ => rfl) i hi, PrefixScan.upTo_cut identity_compose]
  rfl

/-! ## The builders -/

inductive Act where
  | a
  | e
  | c
  | x
  | d
  | u
  deriving DecidableEq

/-- Price and locate share a coordinate. -/
def packed (px locate : ℕ) : BitVec 64 := BitVec.ofNat 64 px <<< 32 ||| BitVec.ofNat 64 locate

def rowopOf (act : Act) (q px locate side : ℕ) : RowOp :=
  match act with
  | .a => ⟨true, fun _ => false, ![if side ≠ 0 then 1 else 0, packed px locate, BitVec.ofNat 64 q],
      false⟩
  | .d => ⟨true, fun _ => false, fun _ => 0, true⟩
  | _ => ⟨true, fun _ => true, ![0, 0, -BitVec.ofNat 64 q], false⟩

/-- The new register of a U keeps the bid selector of the old one. -/
def rowopUNew (newQ newPx locate : ℕ) : RowOp :=
  ⟨true, ![true, false, false], ![0, packed newPx locate, BitVec.ofNat 64 newQ], false⟩

/-! ## The emit stage -/

inductive Verdict where
  | anomaly
  | clean
  | clamped
  deriving DecidableEq

structure Resolved where
  db : BitVec 64
  da : BitVec 64
  px : ℕ
  ok : Verdict
  deriving DecidableEq

/-- The closed-form state: the entry state through a composite. -/
def RowOp.apply (r : RowOp) (o : Lanes (BitVec 64)) : Lanes (BitVec 64) := fun k =>
  (if r.m k then o k else 0) + r.b k

/-- The output forms on a state, with the clamp policy. -/
def emitForms (o : Lanes (BitVec 64)) (act : Act) (wireQ wirePx : ℕ) : Resolved :=
  let sb := o 0
  let pi := o 1
  let rho := o 2
  let clamp : Bool := act ≠ .u ∧ rho.toInt < (BitVec.ofNat 64 wireQ).toInt
  let d := if clamp then rho else BitVec.ofNat 64 wireQ
  let ok := if clamp then .clamped else .clean
  match act with
  | .e => ⟨if sb ≠ 0 then -d else 0, if sb ≠ 0 then 0 else -d, (pi >>> 32).toNat, ok⟩
  | .c => ⟨if sb ≠ 0 then -d else 0, if sb ≠ 0 then 0 else -d, wirePx, ok⟩
  | .x => ⟨if sb ≠ 0 then -d else 0, if sb ≠ 0 then 0 else -d, 0, ok⟩
  | .d => ⟨if sb ≠ 0 then -rho else 0, if sb ≠ 0 then 0 else -rho, 0, ok⟩
  | .u =>
      let dd := BitVec.ofNat 64 wireQ - rho
      ⟨if sb ≠ 0 then dd else 0, if sb ≠ 0 then 0 else dd, 0, ok⟩
  | .a => ⟨0, 0, 0, ok⟩

def emit (pre : RowOp) (entry : Option (Lanes (BitVec 64))) (act : Act) (wireQ wirePx : ℕ) :
    Resolved :=
  if act ≠ .a ∧ entry = none ∧ (pre.m 0 ∨ pre.m 1 ∨ pre.m 2) then ⟨0, 0, 0, .anomaly⟩
  else if pre.dead ∧ act ≠ .a then ⟨0, 0, 0, .anomaly⟩
  else if act = .a then ⟨0, 0, 0, .clean⟩
  else emitForms (pre.apply (entry.getD fun _ => 0)) act wireQ wirePx

/-- A position without a register is an anomaly. -/
theorem emit_anomaly {pre : RowOp} {entry : Option (Lanes (BitVec 64))} {act : Act}
    {wireQ wirePx : ℕ} (hact : act ≠ .a)
    (h : pre.dead = true ∨ (entry = none ∧ ∃ k, pre.m k = true)) :
    (emit pre entry act wireQ wirePx).ok = .anomaly := by
  rw [emit]
  split
  · rfl
  · next hkeeps =>
      have hdead : pre.dead = true := by
        refine h.resolve_right ?_
        rintro ⟨hentry, k, hk⟩
        apply hkeeps
        refine ⟨hact, hentry, ?_⟩
        fin_cases k
        · exact Or.inl hk
        · exact Or.inr (Or.inl hk)
        · exact Or.inr (Or.inr hk)
      rw [if_pos ⟨hdead, hact⟩]

theorem emit_some {pre : RowOp} {e : Lanes (BitVec 64)} {act : Act} {wireQ wirePx : ℕ}
    (hact : act ≠ .a) (hdead : pre.dead = false) :
    emit pre (some e) act wireQ wirePx = emitForms (pre.apply e) act wireQ wirePx := by
  rw [emit, if_neg (by simp), if_neg (by simp [hdead]), if_neg hact]
  rfl

theorem emitForms_ok (o : Lanes (BitVec 64)) {act : Act} (wireQ wirePx : ℕ) :
    (emitForms o act wireQ wirePx).ok =
      if act ≠ .u ∧ (o 2).toInt < (BitVec.ofNat 64 wireQ).toInt then .clamped else .clean := by
  cases act <;> simp [emitForms]

theorem emitForms_ne_anomaly (o : Lanes (BitVec 64)) (act : Act) (wireQ wirePx : ℕ) :
    (emitForms o act wireQ wirePx).ok ≠ .anomaly := by
  rw [emitForms_ok]
  split
  · decide
  · decide

theorem apply_compose (x y : RowOp) (o : Lanes (BitVec 64)) :
    (rowopCompose x y).apply o = y.apply (x.apply o) := by
  funext k
  show (if x.m k && y.m k then o k else 0) + ((if y.m k then x.b k else 0) + y.b k) =
    (if y.m k then (if x.m k then o k else 0) + x.b k else 0) + y.b k
  cases x.m k <;> cases y.m k <;> simp [add_assoc]

theorem apply_identity (o : Lanes (BitVec 64)) : ROWOP_IDENTITY.apply o = o := by
  funext k
  exact add_zero _

end HftProj.Testkit.OrderScan
