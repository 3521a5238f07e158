import Mathlib.Tactic.Ring

/-!
# Horner sums

A sum `u 0 * k ^ (n - 1) + … + u (n - 1)` is folded one term at a time. Three interleaved sums,
each over every third term with the cube of the multiplier, are put together again by the powers
that are left between their last terms.
-/

namespace HftProj.Lib

variable {R : Type*} [CommSemiring R] (k : R) (u : ℕ → R)

/-- The sum of the first terms. -/
@[grind =]
def horner : ℕ → R
  | 0 => 0
  | n + 1 => k * horner n + u n

/-- The sum over the terms of one of three streams, among the first terms. -/
@[grind =]
def hornerStream (m : ℕ) : ℕ → R
  | 0 => 0
  | n + 1 => if n % 3 = m then k ^ 3 * hornerStream m n + u n else hornerStream m n

theorem hornerStream_hit {m n : ℕ} (h : n % 3 = m) :
    hornerStream k u m (n + 1) = k ^ 3 * hornerStream k u m n + u n := if_pos h

theorem hornerStream_miss {m n : ℕ} (h : n % 3 ≠ m) :
    hornerStream k u m (n + 1) = hornerStream k u m n := if_neg h

/-- A whole round feeds every stream once. -/
theorem hornerStream_round {m n : ℕ} (hn : n % 3 = 0) (hm : m < 3) :
    hornerStream k u m (n + 3) = k ^ 3 * hornerStream k u m n + u (n + m) := by
  obtain rfl | rfl | rfl : m = 0 ∨ m = 1 ∨ m = 2 := by omega
  · rw [hornerStream_miss k u (by omega), hornerStream_miss k u (by omega),
      hornerStream_hit k u hn, Nat.add_zero]
  · rw [hornerStream_miss k u (by omega), hornerStream_hit k u (by omega),
      hornerStream_miss k u (by omega)]
  · rw [hornerStream_hit k u (by omega), hornerStream_miss k u (by omega),
      hornerStream_miss k u (by omega)]

/-- The stream of the last term comes in as it is, the one before it times the multiplier, the
one before that times its square. -/
theorem horner_streams (n : ℕ) :
    horner k u n = hornerStream k u ((n + 2) % 3) n + k ^ 2 * hornerStream k u (n % 3) n +
      k * hornerStream k u ((n + 1) % 3) n := by
  induction n with
  | zero => simp [horner, hornerStream]
  | succ n ih =>
      have hlast : (n + 1 + 2) % 3 = n % 3 := by omega
      have hfar : n % 3 ≠ (n + 1) % 3 := by omega
      have hmid : n % 3 ≠ (n + 1 + 1) % 3 := by omega
      rw [hlast, hornerStream_hit k u rfl, hornerStream_miss k u hfar, hornerStream_miss k u hmid,
        horner, ih]
      ring

end HftProj.Lib
