import Mathlib.Algebra.Order.Group.Nat
import Mathlib.Data.Nat.ModEq
import Mathlib.Order.Bounds.Basic
import Mathlib.Tactic.Common

/-!
# Blocks dealt in turn

Positions lie in blocks of `c`, and the blocks go to `n` lanes in turn.
-/

namespace HftProj.Lib.RoundRobin

variable {c n l k p q : ℕ}

/-- The position lies in one of the lane's blocks. -/
def Own (c n l q : ℕ) : Prop := q / c % n = l

instance (c n l q : ℕ) : Decidable (Own c n l q) := inferInstanceAs (Decidable (_ = _))

/-- How many blocks ahead of block `k` the lane's next one is. -/
def advance (n l k : ℕ) : ℕ := (l + n - k % n) % n

theorem advance_lt (hl : l < n) (k : ℕ) : advance n l k < n := Nat.mod_lt _ (Nat.zero_lt_of_lt hl)

theorem add_advance_mod (hl : l < n) (k : ℕ) : (k + advance n l k) % n = l := by
  have hk : k % n < n := Nat.mod_lt _ (Nat.zero_lt_of_lt hl)
  calc
    (k + advance n l k) % n = (k % n + (l + n - k % n)) % n := by
      rw [advance, Nat.add_mod, Nat.mod_mod, ← Nat.add_mod, ← Nat.mod_add_mod]
    _ = (l + n) % n := by
      congr 1
      omega
    _ = l := by rw [Nat.add_mod_right, Nat.mod_eq_of_lt hl]

/-- Any later block of the lane is at least as far ahead. -/
theorem add_advance_le (hl : l < n) (hkq : k ≤ q) (hq : q % n = l) : k + advance n l k ≤ q := by
  obtain ⟨d, rfl⟩ := Nat.exists_eq_add_of_le hkq
  have hsame : k + d ≡ k + advance n l k [MOD n] := hq.trans (add_advance_mod hl k).symm
  have hd : d % n = advance n l k := by
    have hmod := Nat.ModEq.add_left_cancel' k hsame
    exact hmod.trans (Nat.mod_eq_of_lt (advance_lt hl k))
  have hle := Nat.mod_le d n
  omega

theorem advance_eq_zero (hk : k % n = l) : advance n l k = 0 := by
  rw [advance, hk, Nat.add_sub_cancel_left, Nat.mod_self]

theorem advance_pos (hl : l < n) (hk : k % n ≠ l) : 0 < advance n l k := by
  by_contra hzero
  have hmod := add_advance_mod hl k
  rw [Nat.eq_zero_of_not_pos hzero, Nat.add_zero] at hmod
  exact hk hmod

/-! ## Positions -/

theorem own_block (hc : 0 < c) (hk : k % n = l) : Own c n l (k * c) := by
  rwa [Own, Nat.mul_div_cancel _ hc]

theorem Own.of_div (h : Own c n l q) (hdiv : p / c = q / c) : Own c n l p := by
  rwa [Own, hdiv]

/-- Positions a full turn apart belong to the same lane. -/
theorem own_add_turns (hc : 0 < c) (m : ℕ) : Own c n l (q + m * (n * c)) ↔ Own c n l q := by
  rw [Own, Own, ← Nat.mul_assoc, Nat.add_mul_div_right _ _ hc, Nat.add_mul_mod_self_right]

/-- From a position of its own a lane goes on there. -/
theorem isLeast_own (h : Own c n l p) : IsLeast {q | Own c n l q ∧ p ≤ q} p :=
  ⟨⟨h, Nat.le_refl p⟩, fun _ hq => hq.2⟩

/-- From a position of another lane it goes on where its next block starts. -/
theorem isLeast_foreign (hc : 0 < c) (hl : l < n) (h : ¬ Own c n l p) :
    IsLeast {q | Own c n l q ∧ p ≤ q} ((p / c + advance n l (p / c)) * c) := by
  have hpos := advance_pos hl h
  have hlt : p < (p / c + 1) * c := by
    rw [Nat.mul_comm]
    exact Nat.lt_mul_div_succ p hc
  refine ⟨⟨own_block hc (add_advance_mod hl _), ?_⟩, ?_⟩
  · exact (Nat.le_of_lt hlt).trans (Nat.mul_le_mul_right c (Nat.add_le_add_left hpos _))
  · rintro q ⟨hq, hpq⟩
    have hle := add_advance_le hl (Nat.div_le_div_right hpq) hq
    exact (Nat.mul_le_mul_right c hle).trans (Nat.div_mul_le_self q c)

/-- The lane's block at or behind a position. -/
theorem isLeast_block (hc : 0 < c) (hl : l < n) :
    IsLeast {q | Own c n l q ∧ c ∣ q ∧ p < q + c} ((p / c + advance n l (p / c)) * c) := by
  have hlt : p < p / c * c + c := by
    have hmod := Nat.mod_lt p hc
    have hdiv := Nat.div_add_mod' p c
    omega
  refine ⟨⟨own_block hc (add_advance_mod hl _), Nat.dvd_mul_left c _, ?_⟩, ?_⟩
  · exact Nat.lt_of_lt_of_le hlt
      (Nat.add_le_add_right (Nat.mul_le_mul_right c (Nat.le_add_right _ _)) c)
  · rintro q ⟨hq, ⟨k, rfl⟩, hpq⟩
    rw [Own, Nat.mul_div_cancel_left k hc] at hq
    have hk : p / c ≤ k := by
      apply Nat.le_of_lt_succ
      apply Nat.div_lt_of_lt_mul
      rwa [Nat.mul_succ]
    rw [Nat.mul_comm c k]
    exact Nat.mul_le_mul_right c (add_advance_le hl hk hq)

/-- A position inside a block of the lane's has the lane's last position right before it. -/
theorem isGreatest_inside (hc : 0 < c) (h : Own c n l p) (hin : p % c ≠ 0) :
    IsGreatest {q | Own c n l q ∧ q < p} (p - 1) := by
  have hpos : 0 < p := Nat.pos_of_ne_zero (by rintro rfl; exact hin (Nat.zero_mod c))
  have hdiv : (p - 1) / c = p / c := by
    have hsplit := Nat.div_add_mod p c
    have hmod := Nat.mod_lt p hc
    apply Nat.div_eq_of_lt_le
    · rw [Nat.mul_comm]
      omega
    · rw [Nat.succ_mul, Nat.mul_comm]
      omega
  exact ⟨⟨h.of_div hdiv, by omega⟩, fun q hq => Nat.le_sub_one_of_lt hq.2⟩

theorem add_turn_le {j : ℕ} (hjk : j < k) (hmod : j % n = k % n) : j + n ≤ k := by
  have hdvd : n ∣ k - j := (Nat.modEq_iff_dvd' (Nat.le_of_lt hjk)).mp hmod
  have hle := Nat.le_of_dvd (Nat.sub_pos_of_lt hjk) hdvd
  omega

/-- A lane that goes on with block `k` has its last position at the end of the block a turn
before. -/
theorem isGreatest_turn (hc : 0 < c) (hk : k % n = l) (hbelow : p ≤ k * c)
    (hturn : (k + 1 - n) * c ≤ p) (hex : ∃ q, Own c n l q ∧ q < p) :
    n ≤ k ∧ IsGreatest {q | Own c n l q ∧ q < p} ((k + 1 - n) * c - 1) := by
  have hblock : ∀ q, Own c n l q → q < p → q / c + n ≤ k := by
    intro q hq hqp
    apply add_turn_le
    · exact (Nat.div_lt_iff_lt_mul hc).mpr (Nat.lt_of_lt_of_le hqp hbelow)
    · exact hq.trans hk.symm
  obtain ⟨q₀, hq₀, hlt₀⟩ := hex
  have hn : n ≤ k := Nat.le_trans (Nat.le_add_left n _) (hblock q₀ hq₀ hlt₀)
  have hstart : (k + 1 - n) * c = (k - n) * c + c := by
    rw [Nat.sub_add_comm hn, Nat.succ_mul]
  have hdiv : ((k + 1 - n) * c - 1) / c = k - n := by
    apply Nat.div_eq_of_lt_le
    · omega
    · rw [Nat.succ_mul]
      omega
  refine ⟨hn, ⟨?_, by omega⟩, ?_⟩
  · have hmod : (k - n) % n = k % n := (Nat.mod_eq_sub_mod hn).symm
    rw [Own, hdiv, hmod, hk]
  · rintro q ⟨hq, hqp⟩
    have hle : (q / c + 1) * c ≤ (k + 1 - n) * c :=
      Nat.mul_le_mul_right c (by have := hblock q hq hqp; omega)
    have hlt := Nat.lt_mul_div_succ q hc
    rw [Nat.mul_comm] at hlt
    omega

end HftProj.Lib.RoundRobin
