import Mathlib.Tactic.Ring

/-!
# Division by a multiplication

A divisor is replaced by the multiplier `p / n + 1` and a division by `p`. The multiplier is too
large by a fraction, which shows in the quotient once the dividend is large.
-/

namespace HftProj.Lib.MagicDivision

variable {n p u : ℕ}

/-- The multiplier that stands for the divisor `n`. -/
def magic (n p : ℕ) : ℕ := p / n + 1

/-- What the multiplier is too large by. -/
def excess (n p : ℕ) : ℕ := n - p % n

theorem magic_mul (hn : 0 < n) : magic n p * n = p + excess n p := by
  have hle : p % n ≤ n := Nat.le_of_lt (Nat.mod_lt p hn)
  calc magic n p * n = p / n * n + n := Nat.succ_mul (p / n) n
    _ = p / n * n + (p % n + excess n p) := by rw [excess, Nat.add_sub_cancel' hle]
    _ = p + excess n p := by rw [← Nat.add_assoc, Nat.div_add_mod']

theorem excess_lt (h : ¬ n ∣ p) (hn : 0 < n) : excess n p < n := by
  have hpos : 0 < p % n := Nat.pos_of_ne_zero fun hzero => h (Nat.dvd_of_mod_eq_zero hzero)
  exact Nat.sub_lt hn hpos

/-- The quotient is the true one and what the excess adds. -/
theorem mul_magic_div (hn : 0 < n) (hp : 0 < p) (u : ℕ) :
    u * magic n p / p = u / n + (u % n * p + u * excess n p) / (n * p) := by
  have hsplit : n * (u * magic n p) = n * p * (u / n) + (u % n * p + u * excess n p) := by
    calc n * (u * magic n p) = u * (magic n p * n) := by ring
      _ = u * p + u * excess n p := by rw [magic_mul hn, Nat.mul_add]
      _ = (n * (u / n) + u % n) * p + u * excess n p := by rw [Nat.div_add_mod]
      _ = n * p * (u / n) + (u % n * p + u * excess n p) := by ring
  rw [← Nat.mul_div_mul_left (u * magic n p) p hn, hsplit,
    Nat.mul_add_div (Nat.mul_pos hn hp)]

/-- A dividend whose excess stays below two shifts leaves the true quotient or the next one, and
the next one only at the end of its residue class. -/
theorem magic_quotient (htwo : 2 ≤ n) (hp : 0 < p) (hbound : u * excess n p < 2 * p) :
    u * magic n p / p =
      if u % n = n - 1 ∧ p ≤ u * excess n p then u / n + 1 else u / n := by
  have hn : 0 < n := Nat.lt_of_succ_lt htwo
  have hclass : u * excess n p < n * p := hbound.trans_le (Nat.mul_le_mul_right p htwo)
  have hmod : u % n + 1 ≤ n := Nat.mod_lt u hn
  rw [mul_magic_div hn hp]
  split
  · rename_i hlast
    have hone : (u % n * p + u * excess n p) / (n * p) = 1 := by
      have hall : n * p = u % n * p + p := by
        rw [← Nat.succ_mul, Nat.succ_eq_add_one, hlast.1, Nat.sub_add_cancel hn]
      apply Nat.div_eq_of_lt_le
      · rw [Nat.one_mul, hall]
        exact Nat.add_le_add_left hlast.2 _
      · rw [Nat.add_mul, Nat.one_mul]
        exact Nat.add_lt_add_of_le_of_lt (Nat.mul_le_mul_right p (Nat.le_of_succ_le hmod)) hclass
    rw [hone]
  · rename_i hearly
    have hzero : (u % n * p + u * excess n p) / (n * p) = 0 := by
      apply Nat.div_eq_of_lt
      by_cases hlast : u % n = n - 1
      · have hless : u * excess n p < p := Nat.lt_of_not_le fun hle => hearly ⟨hlast, hle⟩
        calc u % n * p + u * excess n p < u % n * p + p := Nat.add_lt_add_left hless _
          _ = (u % n + 1) * p := (Nat.succ_mul _ _).symm
          _ ≤ n * p := Nat.mul_le_mul_right p hmod
      · have hroom : u % n + 2 ≤ n := by omega
        calc u % n * p + u * excess n p < u % n * p + 2 * p := Nat.add_lt_add_left hbound _
          _ = (u % n + 2) * p := (Nat.add_mul _ _ _).symm
          _ ≤ n * p := Nat.mul_le_mul_right p hroom
    rw [hzero, Nat.add_zero]

end HftProj.Lib.MagicDivision
