import Mathlib.Data.List.Basic
import Mathlib.Tactic.Common

/-!
# Sweeps over an array

A sweep walks an array from a cursor on, updates the flagged elements and stops at its budget
or at the first element whose gate is closed. Whatever the budgets, a series of sweeps that
reaches the end has updated every flagged element once.
-/

namespace HftProj.Lib

variable {α : Type*} (f : α → α) (gate flag : ℕ → Bool)

/-- A sweep of at most `budget` elements: the cursor and the number of updates it leaves. -/
@[grind =]
def sweep : ℕ → ℕ → ℕ → List α → ℕ × ℕ × List α
  | 0, idx, count, xs => (idx, count, xs)
  | budget + 1, idx, count, xs =>
      if gate idx then
        if flag idx then sweep budget (idx + 1) (count + 1) (xs.modify idx f)
        else sweep budget (idx + 1) count xs
      else (idx, count, xs)

/-- The flagged elements below `k` updated. -/
def swept (k : ℕ) (xs : List α) : List α :=
  xs.mapIdx fun i x => if i < k ∧ flag i then f x else x

@[simp] theorem swept_length (k : ℕ) (xs : List α) : (swept f flag k xs).length = xs.length := by
  simp [swept]

theorem swept_zero (xs : List α) : swept f flag 0 xs = xs := by
  apply List.ext_getElem
  · simp
  · intro i h₁ h₂
    simp [swept]

theorem swept_succ (k : ℕ) (xs : List α) :
    swept f flag (k + 1) xs =
      if flag k then (swept f flag k xs).modify k f else swept f flag k xs := by
  apply List.ext_getElem
  · split <;> simp
  · intro i h₁ h₂
    split
    · rename_i hflag
      by_cases hik : i = k
      · subst hik
        simp [swept, hflag]
      · rw [List.getElem_modify_ne _ _ (Ne.symm hik)]
        simp only [swept, List.getElem_mapIdx]
        congr 2
        rw [eq_iff_iff]
        omega
    · rename_i hflag
      simp only [swept, List.getElem_mapIdx]
      by_cases hik : i = k
      · subst hik
        simp [hflag]
      · congr 2
        rw [eq_iff_iff]
        omega

/-- An update that overrides another one, swept over it. -/
theorem swept_swept {g : α → α} (h : ∀ x, f (g x) = f x) (k : ℕ) (xs : List α) :
    swept f flag k (swept g flag k xs) = swept f flag k xs := by
  apply List.ext_getElem
  · simp
  · intro i h₁ h₂
    simp only [swept, List.getElem_mapIdx]
    split
    · rw [h]
    · rfl

/-- A sweep of a whole array of values read off a table, flagged by the table. -/
theorem swept_map {β : Type*} {rows : List β} {flags : List Bool} (F : β → α) (G : β → Bool)
    (hflags : flags = rows.map G) :
    swept f (fun i => flags.getD i false) rows.length (rows.map F) =
      rows.map fun row => if G row then f (F row) else F row := by
  subst hflags
  apply List.ext_getElem
  · simp
  · intro i h₁ h₂
    have hi : i < rows.length := by simpa using h₂
    simp [swept, hi]

/-- A sweep goes on where the one before it stopped. -/
theorem sweep_swept (budget idx count : ℕ) (xs : List α) :
    (sweep f gate flag budget idx count (swept f flag idx xs)).2.2 =
        swept f flag (sweep f gate flag budget idx count (swept f flag idx xs)).1 xs ∧
      (sweep f gate flag budget idx count (swept f flag idx xs)).1 ≤ idx + budget := by
  induction budget generalizing idx count with
  | zero => exact ⟨rfl, Nat.le_refl _⟩
  | succ budget ih =>
      have hnext := swept_succ f flag idx xs
      unfold sweep
      split
      · split
        · rename_i hflag
          rw [if_pos hflag] at hnext
          rw [← hnext]
          obtain ⟨h₁, h₂⟩ := ih (idx + 1) (count + 1)
          exact ⟨h₁, by omega⟩
        · rename_i hflag
          rw [if_neg hflag] at hnext
          rw [← hnext]
          obtain ⟨h₁, h₂⟩ := ih (idx + 1) count
          exact ⟨h₁, by omega⟩
      · exact ⟨rfl, Nat.le_add_right _ _⟩

/-- With every gate open a sweep stops at its budget. -/
theorem sweep_open {budget idx : ℕ} (hopen : ∀ i, i < idx + budget → gate i = true)
    (count : ℕ) (xs : List α) : (sweep f gate flag budget idx count xs).1 = idx + budget := by
  induction budget generalizing idx count xs with
  | zero => rfl
  | succ budget ih =>
      have hrest : ∀ i, i < idx + 1 + budget → gate i = true := fun i hi => hopen i (by omega)
      unfold sweep
      rw [if_pos (hopen idx (by omega))]
      split
      · rw [ih hrest]
        omega
      · rw [ih hrest]
        omega

end HftProj.Lib
