import Mathlib.Logic.Function.Basic
import Mathlib.Tactic.Common

/-!
# The in-place prefix scan

Doubling strides: at each level every entry takes in the one a stride before it, from the last
entry down, so that it is read before it is overwritten. For an associative operation every
entry ends up with the product of all entries up to itself. Cutting an operation at flagged
entries keeps it associative, and then a product starts at the last flag.
-/

namespace HftProj.Lib.PrefixScan

variable {M : Type*} (op : M → M → M)

/-! ## The scan -/

/-- One level, from the entry before `i` down. -/
@[grind =]
def level (stride : ℕ) : ℕ → (ℕ → M) → ℕ → M
  | 0, a => a
  | i + 1, a =>
      if stride < i + 1 then
        level stride i (Function.update a i (op (a (i - stride)) (a i)))
      else a

/-- The levels, from a stride on. -/
@[grind =]
def sweep (n stride : ℕ) (a : ℕ → M) : ℕ → M :=
  if 0 < stride ∧ stride < n then sweep n (2 * stride) (level op stride n a) else a
termination_by n - stride

/-- The product of the entries from `lo` to `lo + len`. -/
@[grind =]
def span (a : ℕ → M) (lo : ℕ) : ℕ → M
  | 0 => a lo
  | len + 1 => op (span a lo len) (a (lo + len + 1))

/-- The product of the entries from `lo` to `i`. -/
def upTo (a : ℕ → M) (lo i : ℕ) : M := span op a lo (i - lo)

variable {op} {a orig : ℕ → M} {n stride i j lo : ℕ}

/-- A level leaves alone what lies from its cursor on. -/
theorem level_above (h : i ≤ j) : level op stride i a j = a j := by
  induction i generalizing a with
  | zero => rfl
  | succ i ih =>
      rw [level]
      split
      · rw [ih (by omega), Function.update_of_ne (by omega)]
      · rfl

theorem level_below (h : j < stride) : level op stride i a j = a j := by
  induction i generalizing a with
  | zero => rfl
  | succ i ih =>
      rw [level]
      split
      · rw [ih, Function.update_of_ne (by omega)]
      · rfl

/-- Every entry reads the one a stride before it as the level found it. -/
theorem level_at (hpos : 0 < stride) (hlo : stride ≤ j) (hhi : j < i) :
    level op stride i a j = op (a (j - stride)) (a j) := by
  induction i generalizing a with
  | zero => exact absurd hhi (Nat.not_lt_zero j)
  | succ i ih =>
      rw [level, if_pos (by omega)]
      rcases Nat.lt_or_eq_of_le (Nat.lt_succ_iff.mp hhi) with hlt | rfl
      · rw [ih hlt, Function.update_of_ne (by omega), Function.update_of_ne (by omega)]
      · rw [level_above (Nat.le_refl j), Function.update_self]

/-- One level in closed form. -/
theorem level_eq (hpos : 0 < stride) :
    level op stride i a j = if stride ≤ j ∧ j < i then op (a (j - stride)) (a j) else a j := by
  split
  · rename_i hin
    exact level_at hpos hin.1 hin.2
  · rename_i hout
    rcases Nat.lt_or_ge j stride with hlow | hhigh
    · exact level_below hlow
    · exact level_above (Nat.le_of_not_lt fun hlt => hout ⟨hhigh, hlt⟩)

section Map

variable {N : Type*} {opN : N → N → N} {φ : M → N}

theorem level_map (hφ : ∀ x y, φ (op x y) = opN (φ x) (φ y)) :
    (fun k => φ (level op stride i a k)) = level opN stride i fun k => φ (a k) := by
  induction i generalizing a with
  | zero => rfl
  | succ i ih =>
      rw [level, level]
      split
      · rw [ih]
        congr 1
        funext k
        rw [Function.update_apply, Function.update_apply, apply_ite φ, hφ]
      · rfl

/-- A scan carried over to another operation. -/
theorem sweep_map (hφ : ∀ x y, φ (op x y) = opN (φ x) (φ y)) :
    (fun k => φ (sweep op n stride a k)) = sweep opN n stride fun k => φ (a k) := by
  induction stride, a using sweep.induct op n with
  | case1 stride a hmore ih =>
      rw [sweep, if_pos hmore, sweep.eq_def opN, if_pos hmore, ih, level_map hφ]
  | case2 stride a hdone => rw [sweep, if_neg hdone, sweep, if_neg hdone]

theorem span_map (hφ : ∀ x y, φ (op x y) = opN (φ x) (φ y)) (len : ℕ) :
    φ (span op a lo len) = span opN (fun k => φ (a k)) lo len := by
  induction len with
  | zero => rfl
  | succ len ih => rw [span, span, hφ, ih]

end Map

section Associative

variable (hop : ∀ x y z, op (op x y) z = op x (op y z))
include hop

theorem span_add (m k : ℕ) :
    op (span op a lo m) (span op a (lo + m + 1) k) = span op a lo (m + k + 1) := by
  induction k with
  | zero => rfl
  | succ k ih =>
      rw [span, ← hop, ih]
      show _ = op (span op a lo (m + k + 1)) (a (lo + (m + k + 1) + 1))
      congr 2
      omega

theorem upTo_add {k : ℕ} (h₁ : lo ≤ j) (h₂ : j < k) :
    op (upTo op a lo j) (upTo op a (j + 1) k) = upTo op a lo k := by
  have hmid : j + 1 = lo + (j - lo) + 1 := by omega
  have hlen : k - lo = j - lo + (k - (j + 1)) + 1 := by omega
  rw [upTo, upTo, upTo, hlen, ← span_add hop]
  congr 2

/-- A level doubles what every entry has taken in. -/
theorem level_upTo (hpos : 0 < stride) (h : ∀ i < n, a i = upTo op orig (i + 1 - stride) i) :
    ∀ i < n, level op stride n a i = upTo op orig (i + 1 - 2 * stride) i := by
  intro i hi
  rcases Nat.lt_or_ge i stride with hlt | hge
  · rw [level_below hlt, h i hi]
    congr 1
    omega
  · rw [level_at hpos hge hi, h i hi, h (i - stride) (by omega)]
    have hcut : i + 1 - stride = i - stride + 1 := by omega
    rw [hcut, upTo_add hop (by omega) (by omega)]
    congr 1
    omega

theorem sweep_upTo (hpos : 0 < stride) (h : ∀ i < n, a i = upTo op orig (i + 1 - stride) i) :
    ∀ i < n, sweep op n stride a i = upTo op orig 0 i := by
  induction stride, a using sweep.induct op n with
  | case1 stride a hmore ih =>
      rw [sweep, if_pos hmore]
      exact ih (by omega) (level_upTo hop hpos h)
  | case2 stride a hdone =>
      intro i hi
      rw [sweep, if_neg hdone, h i hi]
      congr 1
      omega

/-- Every entry ends up with the product of all entries up to itself. -/
theorem sweep_eq : ∀ i < n, sweep op n 1 a i = upTo op a 0 i := by
  apply sweep_upTo hop Nat.one_pos
  intro i _
  rw [upTo, Nat.add_sub_cancel, Nat.sub_self, span]

end Associative

/-! ## Cut products -/

section Cut

variable (op) (flag : M → Bool)

/-- A flagged entry starts afresh. -/
def cut (x y : M) : M := if flag y then y else op x y

variable {op flag}

theorem cut_assoc (hop : ∀ x y z, op (op x y) z = op x (op y z))
    (hflag : ∀ x y, flag (op x y) = (flag x || flag y)) (x y z : M) :
    cut op flag (cut op flag x y) z = cut op flag x (cut op flag y z) := by
  by_cases hz : flag z
  · simp only [cut, if_pos hz]
  · by_cases hy : flag y
    · simp [cut, hz, hy, hflag]
    · simp [cut, hz, hy, hflag, hop]

/-- What comes before an entry since the last flag, in the order of the entries. -/
@[grind =]
def before (op : M → M → M) (flag : M → Bool) (unit : M) (a : ℕ → M) : ℕ → M
  | 0 => unit
  | i + 1 => if flag (a (i + 1)) then unit else op (before op flag unit a i) (a i)

/-- The cut scan leaves in every entry what comes before it since the last flag, and itself. -/
theorem upTo_cut {unit : M} (hunit : ∀ x, op unit x = x) (a : ℕ → M) (i : ℕ) :
    upTo (cut op flag) a 0 i = op (before op flag unit a i) (a i) := by
  induction i with
  | zero => exact (hunit _).symm
  | succ i ih =>
      have hstep : upTo (cut op flag) a 0 (i + 1) =
          cut op flag (upTo (cut op flag) a 0 i) (a (i + 1)) := by
        show cut op flag (span (cut op flag) a 0 i) (a (0 + i + 1)) = _
        rw [Nat.zero_add]
        rfl
      rw [hstep, ih, before, cut]
      split
      · exact (hunit _).symm
      · rfl

/-- The nearest flagged entry at or before an entry, or the first one. -/
@[grind =]
def startOf (flag : M → Bool) (a : ℕ → M) : ℕ → ℕ
  | 0 => 0
  | i + 1 => if flag (a (i + 1)) then i + 1 else startOf flag a i

theorem startOf_le (a : ℕ → M) (i : ℕ) : startOf flag a i ≤ i := by
  induction i with
  | zero => exact Nat.le_refl 0
  | succ i ih =>
      rw [startOf]
      split
      · exact Nat.le_refl _
      · exact Nat.le_succ_of_le ih

theorem startOf_comp {N : Type*} (φ : N → M) (a : ℕ → N) (i : ℕ) :
    startOf (fun x => flag (φ x)) a i = startOf flag (fun k => φ (a k)) i := by
  induction i with
  | zero => rfl
  | succ i ih => rw [startOf, startOf, ih]

/-- The cut scan leaves in every entry the product since the last flag. -/
theorem upTo_cut_eq (a : ℕ → M) (i : ℕ) :
    upTo (cut op flag) a 0 i = upTo op a (startOf flag a i) i := by
  induction i with
  | zero => rfl
  | succ i ih =>
      have hstep : upTo (cut op flag) a 0 (i + 1) =
          cut op flag (upTo (cut op flag) a 0 i) (a (i + 1)) := by
        rw [upTo, upTo, Nat.sub_zero, Nat.sub_zero, span, Nat.zero_add]
      rw [hstep, ih, cut, startOf]
      split
      · rw [upTo, Nat.sub_self, span]
      · have hle : startOf flag a i ≤ i := startOf_le a i
        have hlen : i + 1 - startOf flag a i = i - startOf flag a i + 1 := by omega
        have hlast : startOf flag a i + (i - startOf flag a i) + 1 = i + 1 := by omega
        rw [upTo, upTo, hlen, span, hlast]

end Cut

end HftProj.Lib.PrefixScan
