import Mathlib.Logic.Function.Basic
import Mathlib.Tactic.Common

/-!
# Dense pools

A pool is the first `n` cells of an array. A member is taken out by moving the last member into
its cell, so the pool stays dense and is never scanned. Keys that are distinct stay distinct, and
no other member is touched.
-/

namespace HftProj.Lib.SwapPool

variable {α κ : Type*}

/-- What the first `n` cells hold. -/
def Member (cells : ℕ → α) (n : ℕ) (a : α) : Prop := ∃ i < n, cells i = a

/-- No key stands in two of the first `n` cells. -/
def Distinct (key : α → κ) (cells : ℕ → α) (n : ℕ) : Prop :=
  ∀ i < n, ∀ j < n, key (cells i) = key (cells j) → i = j

variable {key : α → κ} {cells : ℕ → α} {n i : ℕ} {a b : α}

theorem member_at (hi : i < n) : Member cells n (cells i) := ⟨i, hi, rfl⟩

theorem not_member_empty : ¬ Member cells 0 a := fun ⟨_, hi, _⟩ => Nat.not_lt_zero _ hi

theorem distinct_empty : Distinct key cells 0 := fun _ hi => absurd hi (Nat.not_lt_zero _)

/-! ## A new member -/

theorem member_push : Member (Function.update cells n a) (n + 1) b ↔ b = a ∨ Member cells n b := by
  constructor
  · rintro ⟨i, hi, rfl⟩
    by_cases hn : i = n
    · exact Or.inl (by rw [hn, Function.update_self])
    · exact Or.inr ⟨i, by omega, (Function.update_of_ne hn a cells).symm⟩
  · rintro (rfl | ⟨i, hi, rfl⟩)
    · exact ⟨n, Nat.lt_succ_self n, Function.update_self n _ cells⟩
    · exact ⟨i, Nat.lt_succ_of_lt hi, Function.update_of_ne (Nat.ne_of_lt hi) a cells⟩

theorem Distinct.push (h : Distinct key cells n)
    (hfresh : ∀ b, Member cells n b → key b ≠ key a) :
    Distinct key (Function.update cells n a) (n + 1) := by
  intro i hi j hj heq
  rw [Function.update_apply, Function.update_apply] at heq
  split at heq <;> split at heq
  · next hin hjn => exact hin.trans hjn.symm
  · next hjn => exact absurd heq.symm (hfresh _ (member_at (by omega)))
  · next hin _ => exact absurd heq (hfresh _ (member_at (by omega)))
  · exact h i (by omega) j (by omega) heq

/-! ## A changed member -/

theorem Distinct.member_set (h : Distinct key cells n) (hi : i < n)
    (hkey : key a = key (cells i)) :
    Member (Function.update cells i a) n b ↔ b = a ∨ Member cells n b ∧ key b ≠ key a := by
  constructor
  · rintro ⟨j, hj, rfl⟩
    by_cases hij : j = i
    · exact Or.inl (by rw [hij, Function.update_self])
    · rw [Function.update_of_ne hij]
      refine Or.inr ⟨member_at hj, fun heq => hij ?_⟩
      exact h j hj i hi (heq.trans hkey)
  · rintro (rfl | ⟨⟨j, hj, rfl⟩, hne⟩)
    · exact ⟨i, hi, Function.update_self i _ cells⟩
    · have hij : j ≠ i := fun hij => hne (by rw [hij, hkey])
      exact ⟨j, hj, Function.update_of_ne hij a cells⟩

theorem Distinct.set (h : Distinct key cells n) (hkey : key a = key (cells i)) :
    Distinct key (Function.update cells i a) n := by
  have hsame : ∀ j, key (Function.update cells i a j) = key (cells j) := by
    intro j
    rw [Function.update_apply]
    split
    · next hij => rw [hkey, hij]
    · rfl
  intro j hj k hk heq
  rw [hsame, hsame] at heq
  exact h j hj k hk heq

/-! ## A member taken out -/

theorem Distinct.member_remove (h : Distinct key cells n) (hi : i < n) :
    Member (Function.update cells i (cells (n - 1))) (n - 1) b ↔
      Member cells n b ∧ key b ≠ key (cells i) := by
  constructor
  · rintro ⟨j, hj, rfl⟩
    by_cases hij : j = i
    · rw [hij, Function.update_self]
      refine ⟨member_at (by omega), fun heq => ?_⟩
      have := h (n - 1) (by omega) i hi heq
      omega
    · rw [Function.update_of_ne hij]
      exact ⟨member_at (by omega), fun heq => hij (h j (by omega) i hi heq)⟩
  · rintro ⟨⟨j, hj, rfl⟩, hne⟩
    have hij : j ≠ i := fun hij => hne (by rw [hij])
    by_cases hlast : j = n - 1
    · exact ⟨i, by omega, by rw [Function.update_self, hlast]⟩
    · exact ⟨j, by omega, Function.update_of_ne hij _ cells⟩

theorem Distinct.remove (h : Distinct key cells n) (hi : i < n) :
    Distinct key (Function.update cells i (cells (n - 1))) (n - 1) := by
  intro j hj k hk heq
  rw [Function.update_apply, Function.update_apply] at heq
  split at heq <;> split at heq
  · next hji hki => exact hji.trans hki.symm
  · have := h (n - 1) (by omega) k (by omega) heq
    omega
  · have := h j (by omega) (n - 1) (by omega) heq
    omega
  · exact h j (by omega) k (by omega) heq

end HftProj.Lib.SwapPool
