import Mathlib.Algebra.BigOperators.Group.List.Basic
import Mathlib.Algebra.GroupWithZero.Nat
import Mathlib.Data.List.Sort
import Mathlib.Tactic.Common

/-!
# Ranks

The entry of a given rank in order of size. A classification that respects the order puts it in
the first class at which the class sizes add up to the rank.
-/

namespace HftProj.Lib.Ranks

variable {xs : List ℕ} {t v : ℕ}

/-- The `t`-th smallest entry, counted from 1. -/
def nth (xs : List ℕ) (t : ℕ) : Option ℕ := (xs.mergeSort (· ≤ ·))[t - 1]?

theorem nth_exists (hpos : 1 ≤ t) (hle : t ≤ xs.length) : ∃ v, nth xs t = some v := by
  have hlt : t - 1 < (xs.mergeSort (· ≤ ·)).length := by
    rw [List.length_mergeSort]
    omega
  exact ⟨_, List.getElem?_eq_getElem hlt⟩

theorem sorted_mergeSort (xs : List ℕ) : (xs.mergeSort (· ≤ ·)).Pairwise (· ≤ ·) := by
  have h := @List.pairwise_mergeSort ℕ (fun a b => decide (a ≤ b))
    (by simpa using fun a b c => Nat.le_trans) (by simpa using Nat.le_total) xs
  simpa using h

theorem sorted_getElem_le {s : List ℕ} (hs : s.Pairwise (· ≤ ·)) {i j : ℕ} (hij : i ≤ j)
    (hj : j < s.length) : s[i] ≤ s[j] := by
  obtain hlt | rfl := Nat.lt_or_eq_of_le hij
  · exact List.pairwise_iff_getElem.mp hs i j (Nat.lt_trans hlt hj) hj hlt
  · exact Nat.le_refl _

theorem nth_mem (h : nth xs t = some v) : v ∈ xs :=
  List.mem_mergeSort.mp (List.mem_of_getElem? h)

/-- Fewer entries than the rank are smaller. -/
theorem count_lt (hpos : 1 ≤ t) (h : nth xs t = some v) : xs.countP (· < v) < t := by
  obtain ⟨hlt, hget⟩ := List.getElem?_eq_some_iff.mp h
  have hsorted := sorted_mergeSort xs
  generalize hs : xs.mergeSort (· ≤ ·) = s at hlt hget hsorted
  have hdrop : (s.drop (t - 1)).countP (· < v) = 0 := by
    rw [List.countP_eq_zero]
    intro x hx
    obtain ⟨i, hi, rfl⟩ := List.mem_iff_getElem.mp hx
    have hlen : t - 1 + i < s.length := by
      rw [List.length_drop] at hi
      omega
    have hle := sorted_getElem_le hsorted (Nat.le_add_right (t - 1) i) hlen
    simpa [← hget] using hle
  calc
    xs.countP (· < v) = s.countP (· < v) := by
      rw [← hs]
      exact (List.mergeSort_perm xs _).countP_eq _ |>.symm
    _ = (s.take (t - 1)).countP (· < v) := by
      rw [← List.take_append_drop (t - 1) s, List.countP_append, hdrop, List.take_append_drop,
        Nat.add_zero]
    _ ≤ (s.take (t - 1)).length := List.countP_le_length
    _ < t := by
      rw [List.length_take]
      omega

/-- As many entries as the rank are no greater. -/
theorem le_count (hpos : 1 ≤ t) (h : nth xs t = some v) : t ≤ xs.countP (· ≤ v) := by
  obtain ⟨hlt, hget⟩ := List.getElem?_eq_some_iff.mp h
  have hsorted := sorted_mergeSort xs
  generalize hs : xs.mergeSort (· ≤ ·) = s at hlt hget hsorted
  have htake : (s.take t).countP (· ≤ v) = (s.take t).length := by
    rw [List.countP_eq_length]
    intro x hx
    obtain ⟨i, hi, rfl⟩ := List.mem_iff_getElem.mp hx
    rw [List.length_take] at hi
    have hle := sorted_getElem_le hsorted (Nat.le_sub_one_of_lt (by omega : i < t)) hlt
    simpa [← hget] using hle
  calc
    t = (s.take t).countP (· ≤ v) := by
      rw [htake, List.length_take]
      omega
    _ ≤ s.countP (· ≤ v) := (List.take_sublist t s).countP_le
    _ = xs.countP (· ≤ v) := by
      rw [← hs]
      exact (List.mergeSort_perm xs _).countP_eq _

/-- Ranks are in order of size. -/
theorem nth_le {t' v' : ℕ} (hpos : 1 ≤ t) (hle : t ≤ t') (h : nth xs t = some v)
    (h' : nth xs t' = some v') : v ≤ v' := by
  by_contra hlt
  have hless : xs.countP (· ≤ v') ≤ xs.countP (· < v) := by
    apply List.countP_mono_left
    intro x _ hx
    rw [decide_eq_true_eq] at hx ⊢
    exact Nat.lt_of_le_of_lt hx (Nat.lt_of_not_le hlt)
  have hcount := le_count (hpos.trans hle) h'
  have := count_lt hpos h
  omega

/-! ## Running totals -/

/-- The first position at which the running total reaches the target. -/
@[grind =]
def reach (target : ℕ) : ℕ → ℕ → List ℕ → Option ℕ
  | _, _, [] => none
  | idx, accumulated, cnt :: rest =>
      if target ≤ accumulated + cnt then some idx
      else reach target (idx + 1) (accumulated + cnt) rest

theorem reach_eq {cs : List ℕ} {target idx acc j : ℕ} (hj : j < cs.length)
    (hlow : acc + (cs.take j).sum < target) (hhigh : target ≤ acc + (cs.take (j + 1)).sum) :
    reach target idx acc cs = some (idx + j) := by
  induction cs generalizing idx acc j with
  | nil => exact absurd hj (Nat.not_lt_zero j)
  | cons c cs ih =>
      rw [reach]
      cases j with
      | zero =>
          rw [if_pos (by simpa using hhigh), Nat.add_zero]
      | succ j =>
          rw [List.take_succ_cons, List.sum_cons] at hlow hhigh
          rw [if_neg (by omega), ih (Nat.lt_of_succ_lt_succ hj) (by omega) (by omega),
            Nat.add_assoc, Nat.add_comm 1 j]

/-- The sizes of the first classes add up to the number of entries in them. -/
theorem sum_take_classes {f : ℕ → ℕ} {cs : List ℕ}
    (hcs : ∀ i (hi : i < cs.length), cs[i] = xs.countP (f · = i)) {j : ℕ} (hj : j ≤ cs.length) :
    (cs.take j).sum = xs.countP (f · < j) := by
  induction j with
  | zero => simp
  | succ j ih =>
      have hsplit : xs.countP (f · < j + 1) = xs.countP (f · < j) + xs.countP (f · = j) := by
        clear hcs ih
        induction xs with
        | nil => rfl
        | cons x xs ihx =>
            simp only [List.countP_cons, ihx, decide_eq_true_eq]
            split <;> split <;> split <;> omega
      rw [List.take_succ_eq_append_getElem hj, List.sum_append, ih (Nat.le_of_lt hj),
        List.sum_singleton, hcs, hsplit]

/-- The running total of the class sizes reaches a rank in the class of the entry of that rank. -/
theorem reach_class {f : ℕ → ℕ} {cs : List ℕ} (hf : ∀ x ∈ xs, ∀ y ∈ xs, x ≤ y → f x ≤ f y)
    (hcs : ∀ i (hi : i < cs.length), cs[i] = xs.countP (f · = i)) (hpos : 1 ≤ t)
    (h : nth xs t = some v) (hv : f v < cs.length) : reach t 0 0 cs = some (f v) := by
  have hlow : xs.countP (f · < f v) ≤ xs.countP (· < v) := by
    apply List.countP_mono_left
    intro x hx hlt
    rw [decide_eq_true_eq] at hlt ⊢
    by_contra hge
    exact Nat.not_le_of_lt hlt (hf v (nth_mem h) x hx (Nat.le_of_not_lt hge))
  have hhigh : xs.countP (· ≤ v) ≤ xs.countP (f · < f v + 1) := by
    apply List.countP_mono_left
    intro x hx hle
    rw [decide_eq_true_eq] at hle ⊢
    exact Nat.lt_succ_of_le (hf x hx v (nth_mem h) hle)
  rw [reach_eq hv, Nat.zero_add]
  · rw [sum_take_classes hcs (Nat.le_of_lt hv), Nat.zero_add]
    exact Nat.lt_of_le_of_lt hlow (count_lt hpos h)
  · rw [sum_take_classes hcs hv, Nat.zero_add]
    exact Nat.le_trans (le_count hpos h) hhigh

end HftProj.Lib.Ranks
