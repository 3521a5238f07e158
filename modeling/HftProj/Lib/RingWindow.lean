import Mathlib.Data.Nat.ModEq
import Mathlib.Logic.Function.Basic
import Mathlib.Tactic.Common

/-!
# A ring of cells seen as a window over the natural numbers

`N` cells are indexed by residues. From a base position the ring shows the
positions `base, …, base + N - 1`, one for each cell, and nothing else. Moving
the base is sound exactly when the cells left behind are emptied.
-/

namespace HftProj.Lib.RingWindow

variable {α : Type*} {N : ℕ}

/-- What the ring holds for position `q`, seen from `base`. -/
def view (N : ℕ) (cells : ℕ → Option α) (base q : ℕ) : Option α :=
  if base ≤ q ∧ q < base + N then cells (q % N) else none

/-- Positions of one window are told apart by their residues. -/
theorem eq_of_mod_eq {base p q : ℕ} (hp : base ≤ p ∧ p < base + N)
    (hq : base ≤ q ∧ q < base + N) (h : p % N = q % N) : p = q := by
  have aux : ∀ {x y : ℕ}, x ≤ y → y < x + N → x % N = y % N → x = y := by
    intro x y hxy hlt he
    have hdvd : N ∣ y - x := (Nat.modEq_iff_dvd' hxy).mp he
    have hzero : y - x = 0 := Nat.eq_zero_of_dvd_of_lt hdvd (by omega)
    omega
  rcases Nat.le_total p q with hle | hle
  · exact aux hle (by omega) h
  · exact (aux hle (by omega) h.symm).symm

/-- Every residue is shown at some position of the window. -/
theorem exists_position (base : ℕ) {i : ℕ} (hi : i < N) :
    ∃ q, base ≤ q ∧ q < base + N ∧ q % N = i := by
  have hN : 0 < N := by omega
  have hbase := Nat.mod_lt base hN
  have hdiv := Nat.mod_add_div base N
  by_cases h : base % N ≤ i
  · refine ⟨base + (i - base % N), by omega, by omega, ?_⟩
    have : base + (i - base % N) = i + N * (base / N) := by omega
    rw [this, Nat.add_mul_mod_self_left, Nat.mod_eq_of_lt hi]
  · refine ⟨base + (N + i - base % N), by omega, by omega, ?_⟩
    have : base + (N + i - base % N) = i + N * (base / N + 1) := by
      rw [Nat.mul_add]; omega
    rw [this, Nat.add_mul_mod_self_left, Nat.mod_eq_of_lt hi]

theorem view_of_mem {cells : ℕ → Option α} {base q : ℕ} (h : base ≤ q ∧ q < base + N) :
    view N cells base q = cells (q % N) := if_pos h

theorem mem_of_view_ne_none {cells : ℕ → Option α} {base q : ℕ}
    (h : view N cells base q ≠ none) : base ≤ q ∧ q < base + N := by
  by_contra hn
  exact h (if_neg hn)

/-- Writing the cell of a shown position changes that position only. -/
theorem view_update {cells : ℕ → Option α} {base q : ℕ} (h : base ≤ q ∧ q < base + N)
    (x : Option α) :
    view N (Function.update cells (q % N) x) base =
      Function.update (view N cells base) q x := by
  funext p
  by_cases hp : base ≤ p ∧ p < base + N
  · by_cases hpq : p = q
    · subst p
      simp [view, h]
    · have hne : p % N ≠ q % N := fun he => hpq (eq_of_mod_eq hp h he)
      simp [view, hp, Function.update_of_ne hpq, Function.update_of_ne hne]
  · have hpq : p ≠ q := fun he => hp (he ▸ h)
    simp [view, hp, Function.update_of_ne hpq]

/-- Emptying the cells of `[a, b)` before moving the base from `a` to `b` leaves
exactly what the window already showed from `b` on. -/
theorem view_clear (hN : 0 < N) {cells cells' : ℕ → Option α} {a b : ℕ}
    (hcleared : ∀ c, a ≤ c → c < b → c < a + N → cells' (c % N) = none)
    (hkept : ∀ i < N, (∀ c, a ≤ c → c < b → c < a + N → c % N ≠ i) → cells' i = cells i)
    (hab : a ≤ b) (q : ℕ) :
    view N cells' b q = if b ≤ q then view N cells a q else none := by
  by_cases hbq : b ≤ q
  · rw [if_pos hbq]
    by_cases hqa : q < a + N
    · rw [view_of_mem ⟨hbq, by omega⟩, view_of_mem ⟨by omega, hqa⟩]
      apply hkept _ (Nat.mod_lt _ hN)
      intro c hac hcb hcN he
      have := eq_of_mod_eq ⟨hac, hcN⟩ ⟨by omega, hqa⟩ he
      omega
    · rw [view, view, if_neg (show ¬(a ≤ q ∧ q < a + N) by omega)]
      by_cases hqb : q < b + N
      · rw [if_pos ⟨hbq, hqb⟩]
        -- the cell of `q` also served a position of `[a, b)`, so it was emptied
        obtain ⟨c, hac, hcN, he⟩ := exists_position a (Nat.mod_lt q hN)
        have hcb : c < b := by
          by_contra hn
          have := eq_of_mod_eq ⟨show b ≤ c by omega, by omega⟩ ⟨hbq, hqb⟩ he
          omega
        rw [← he]
        exact hcleared c hac hcb hcN
      · rw [if_neg (by omega)]
  · rw [if_neg hbq, view, if_neg (by omega)]

/-- Emptying the base cell and moving the base by one. -/
theorem view_drop (hN : 0 < N) (cells : ℕ → Option α) (base q : ℕ) :
    view N (Function.update cells (base % N) none) (base + 1) q =
      if base + 1 ≤ q then view N cells base q else none := by
  apply view_clear hN _ _ (Nat.le_succ base)
  · intro c hc hcb _
    obtain rfl : c = base := by omega
    simp
  · intro i _ hi
    exact Function.update_of_ne (hi base (Nat.le_refl _) (by omega) (by omega)).symm _ _

end HftProj.Lib.RingWindow
