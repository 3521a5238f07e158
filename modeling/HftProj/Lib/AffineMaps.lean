import Mathlib.Algebra.BigOperators.Group.List.Basic
import Mathlib.Algebra.Ring.Units
import Mathlib.Tactic.Ring

/-!
# Affine maps

The maps `h ↦ h * c + v` over a commutative semiring, multiplied in the order in which they
apply.
-/

namespace HftProj.Lib.AffineMaps

/-- The map `h ↦ h * c + v`. -/
@[ext]
structure Affine (R : Type*) where
  c : R
  v : R

namespace Affine

section Semiring

variable {R : Type*} [CommSemiring R]

instance : Monoid (Affine R) where
  one := ⟨1, 0⟩
  mul a b := ⟨a.c * b.c, a.v * b.c + b.v⟩
  mul_assoc a b d := by
    apply Affine.ext
    · exact mul_assoc a.c b.c d.c
    · change (a.v * b.c + b.v) * d.c + d.v = a.v * (b.c * d.c) + (b.v * d.c + d.v)
      ring
  one_mul a := by
    apply Affine.ext
    · exact one_mul a.c
    · change 0 * a.c + a.v = a.v
      rw [zero_mul, zero_add]
  mul_one a := by
    apply Affine.ext
    · exact mul_one a.c
    · change a.v * 1 + 0 = a.v
      rw [mul_one, add_zero]

theorem one_c : (1 : Affine R).c = 1 := rfl

theorem one_v : (1 : Affine R).v = 0 := rfl

theorem mul_c (a b : Affine R) : (a * b).c = a.c * b.c := rfl

theorem mul_v (a b : Affine R) : (a * b).v = a.v * b.c + b.v := rfl

end Semiring

variable {R : Type*} [CommRing R]

/-- In front of a map with an invertible factor only the identity does not show. -/
theorem mul_eq_right_iff {a b : Affine R} (hb : IsUnit b.c) : a * b = b ↔ a = 1 := by
  constructor
  · intro h
    have hc : a.c * b.c = 1 * b.c := by rw [← mul_c, h, one_mul]
    have hv : a.v * b.c + b.v = 0 + b.v := by rw [← mul_v, h, zero_add]
    apply Affine.ext
    · exact hb.mul_right_cancel hc
    · apply hb.mul_right_cancel
      rw [add_right_cancel hv, one_v, zero_mul]
  · rintro rfl
    exact one_mul b

end Affine

/-! ## Products of blocks -/

section Blocks

variable {α : Type*} {n m : ℕ}

/-- The blocks of `n` entries make up the list. -/
theorem flatMap_blocks {xs : List α} (h : xs.length ≤ m * n) :
    ((List.range m).flatMap fun j => (xs.drop (j * n)).take n) = xs := by
  induction m generalizing xs with
  | zero =>
      rw [Nat.zero_mul] at h
      rw [List.length_eq_zero_iff.mp (Nat.le_zero.mp h)]
      rfl
  | succ m ih =>
      have hrest : (xs.drop n).length ≤ m * n := by
        rw [List.length_drop]
        rw [Nat.succ_mul] at h
        exact Nat.sub_le_of_le_add h
      have hshift :
          (List.range m).flatMap (fun j => (xs.drop ((j + 1) * n)).take n) = xs.drop n := by
        rw [← ih hrest]
        apply List.flatMap_congr
        intro j _
        rw [List.drop_drop, Nat.succ_mul, Nat.add_comm]
      rw [List.range_succ_eq_map, List.flatMap_cons, List.flatMap_map, Nat.zero_mul, List.drop_zero]
      exact (congrArg (xs.take n ++ ·) hshift).trans (List.take_append_drop n xs)

/-- Products agree if they agree block by block. -/
theorem prod_flatMap_congr {ι M : Type*} [Monoid M] {l : List ι} {f g : ι → List M}
    (h : ∀ j ∈ l, (f j).prod = (g j).prod) : (l.flatMap f).prod = (l.flatMap g).prod := by
  induction l with
  | nil => rfl
  | cons j l ih =>
      rw [List.flatMap_cons, List.flatMap_cons, List.prod_append, List.prod_append,
        h j List.mem_cons_self, ih fun i hi => h i (List.mem_cons_of_mem j hi)]

end Blocks

end HftProj.Lib.AffineMaps
