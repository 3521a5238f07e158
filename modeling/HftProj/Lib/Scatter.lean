import HftProj.Lib.Threads
import Mathlib.Algebra.BigOperators.Group.List.Basic
import Mathlib.Algebra.GroupWithZero.Nat
import Mathlib.Algebra.Order.BigOperators.Group.List

/-!
# Scattering by key

An array is divided into one run of cells for each key, and each item goes to the next cell of
its key's run. When every run has room for its items and no two overlap, the array ends as the
threads of the items, side by side.
-/

namespace HftProj.Lib.Scatter

open Threads

variable {X K A : Type*} [DecidableEq K]

/-- The `c` cells from `a` on. -/
def cells (a c : ℕ) (arr : List A) : List A := (arr.drop a).take c

section Cells

variable {a c i : ℕ} {arr : List A} {x : A}

theorem cells_length (h : a + c ≤ arr.length) : (cells a c arr).length = c := by
  rw [cells, List.length_take, List.length_drop]
  omega

/-- The cell behind some cells is written. -/
theorem cells_set_next (h : a + c < arr.length) :
    cells a (c + 1) (arr.set (a + c) x) = cells a c arr ++ [x] := by
  have hlt : c < (arr.drop a).length := by
    rw [List.length_drop]
    omega
  have hset : (arr.set (a + c) x).drop a = (arr.drop a).set c x := by
    rw [List.drop_set, if_neg (by omega), Nat.add_sub_cancel_left]
  rw [cells, hset, List.take_succ_eq_append_getElem (by rwa [List.length_set]),
    List.getElem_set_self, List.take_set_of_le (Nat.le_refl c)]
  rfl

/-- A cell elsewhere is written. -/
theorem cells_set_apart (h : i < a ∨ a + c ≤ i) : cells a c (arr.set i x) = cells a c arr := by
  rw [cells, List.drop_set]
  split
  · rfl
  · rw [List.take_set_of_le (by omega)]
    rfl

end Cells

/-! ## Items in place -/

variable {key : X → K} {val : X → A} {start : K → ℕ} {arr : List A} {all pre xs : List X} {x : X}

/-- Every key's items so far lie from its start on. -/
def Placed (key : X → K) (val : X → A) (start : K → ℕ) (arr : List A) (xs : List X) : Prop :=
  ∀ k, cells (start k) (thread key k xs).length arr = (thread key k xs).map val

/-- No two keys' runs overlap. -/
def Apart (key : X → K) (start : K → ℕ) (all : List X) : Prop :=
  ∀ k ∈ all.map key, ∀ k' ∈ all.map key, k ≠ k' →
    start k + (thread key k all).length ≤ start k' ∨
      start k' + (thread key k' all).length ≤ start k

theorem thread_append (k : K) (xs ys : List X) :
    thread key k (xs ++ ys) = thread key k xs ++ thread key k ys := List.filter_append ..

theorem thread_snoc_self (xs : List X) (x : X) :
    thread key (key x) (xs ++ [x]) = thread key (key x) xs ++ [x] := by
  rw [thread_append]
  congr 1
  exact List.filter_cons_of_pos (decide_eq_true rfl)

theorem thread_snoc_of_ne {k : K} (h : key x ≠ k) (xs : List X) :
    thread key k (xs ++ [x]) = thread key k xs := by
  have hnone : thread key k [x] = [] := List.filter_cons_of_neg (by simpa using h)
  rw [thread_append, hnone, List.append_nil]

theorem thread_eq_nil {k : K} (h : k ∉ xs.map key) : thread key k xs = [] := by
  apply List.filter_eq_nil_iff.mpr
  intro x hx heq
  exact h (List.mem_map.mpr ⟨x, hx, of_decide_eq_true heq⟩)

theorem placed_nil (arr : List A) : Placed key val start arr [] := fun _ => rfl

/-- The next item goes behind its thread's. -/
theorem Placed.step {post : List X} (h : Placed key val start arr pre)
    (hapart : Apart key start (pre ++ x :: post))
    (hroom : start (key x) + (thread key (key x) (pre ++ x :: post)).length ≤ arr.length) :
    start (key x) + (thread key (key x) pre).length < arr.length ∧
      Placed key val start (arr.set (start (key x) + (thread key (key x) pre).length) (val x))
        (pre ++ [x]) := by
  have hself : (thread key (key x) (pre ++ x :: post)).length =
      (thread key (key x) pre).length + 1 + (thread key (key x) post).length := by
    rw [List.append_cons, thread_append, thread_snoc_self, List.length_append,
      List.length_append, List.length_singleton]
  have hlt : start (key x) + (thread key (key x) pre).length < arr.length := by omega
  refine ⟨hlt, fun k => ?_⟩
  by_cases hk : key x = k
  · subst hk
    rw [thread_snoc_self, List.length_append, List.length_singleton, cells_set_next hlt,
      h (key x), List.map_append, List.map_singleton]
  · rw [thread_snoc_of_ne hk, ← h k]
    by_cases hmem : k ∈ (pre ++ x :: post).map key
    · apply cells_set_apart
      have hx : key x ∈ (pre ++ x :: post).map key := List.mem_map_of_mem (by simp)
      have hle : (thread key k pre).length ≤ (thread key k (pre ++ x :: post)).length := by
        rw [thread_append, List.length_append]
        exact Nat.le_add_right _ _
      rcases hapart (key x) hx k hmem hk with hbefore | hafter
      · left
        omega
      · right
        omega
    · have hnone : thread key k pre = [] := by
        apply thread_eq_nil
        intro hpre
        rw [List.map_append] at hmem
        exact hmem (List.mem_append_left _ hpre)
      rw [hnone]
      rfl

/-! ## Runs side by side -/

/-- Where the part of an index starts. -/
def offset (sizes : List ℕ) (i : ℕ) : ℕ := (sizes.take i).sum

section Offsets

variable {sizes : List ℕ} {i j : ℕ}

theorem offset_succ (h : i < sizes.length) : offset sizes (i + 1) = offset sizes i + sizes[i] := by
  rw [offset, List.take_succ_eq_append_getElem h, List.sum_append, List.sum_singleton, offset]

theorem offset_mono (h : i ≤ j) : offset sizes i ≤ offset sizes j := by
  rw [offset, offset, ← Nat.add_sub_cancel' h, List.take_add, List.sum_append]
  exact Nat.le_add_right _ _

theorem offset_le_sum (sizes : List ℕ) (i : ℕ) : offset sizes i ≤ sizes.sum := by
  rw [offset, ← List.sum_take_add_sum_drop sizes i]
  exact Nat.le_add_right _ _

theorem offset_length (sizes : List ℕ) : offset sizes sizes.length = sizes.sum := by
  rw [offset, List.take_length]

/-- Of two parts one ends before the other starts. -/
theorem offset_apart (hi : i < sizes.length) (hj : j < sizes.length) (hne : i ≠ j) :
    offset sizes i + sizes[i] ≤ offset sizes j ∨ offset sizes j + sizes[j] ≤ offset sizes i := by
  rw [← offset_succ hi, ← offset_succ hj]
  rcases Nat.lt_or_gt_of_ne hne with hlt | hgt
  · exact Or.inl (offset_mono hlt)
  · exact Or.inr (offset_mono hgt)

end Offsets

/-- Parts that fill an array one behind the other are the array. -/
theorem flatten_of_cells (parts : List (List A)) (arr : List A)
    (hlen : arr.length = (parts.map List.length).sum)
    (h : ∀ i (hi : i < parts.length),
      cells (offset (parts.map List.length) i) parts[i].length arr = parts[i]) :
    arr = parts.flatten := by
  induction parts generalizing arr with
  | nil => exact List.length_eq_zero_iff.mp hlen
  | cons p parts ih =>
      have hfirst : arr.take p.length = p := h 0 (Nat.succ_pos _)
      rw [List.map_cons, List.sum_cons] at hlen
      have hrest : arr.drop p.length = parts.flatten := by
        apply ih
        · rw [List.length_drop]
          omega
        · intro i hi
          have hcell := h (i + 1) (Nat.succ_lt_succ hi)
          rw [List.getElem_cons_succ, cells, List.map_cons, offset, List.take_succ_cons,
            List.sum_cons] at hcell
          rw [cells, List.drop_drop]
          exact hcell
      rw [List.flatten_cons, ← hrest, ← congrArg (· ++ arr.drop p.length) hfirst,
        List.take_append_drop]

/-- A part of a divided array. -/
theorem cells_flatten (parts : List (List A)) {i : ℕ} (hi : i < parts.length) :
    cells (offset (parts.map List.length) i) parts[i].length parts.flatten = parts[i] := by
  induction parts generalizing i with
  | nil => exact absurd hi (Nat.not_lt_zero i)
  | cons p parts ih =>
      cases i with
      | zero =>
          rw [List.getElem_cons_zero, cells, List.flatten_cons]
          exact List.take_left' rfl
      | succ i =>
          have hrest := ih (Nat.lt_of_succ_lt_succ hi)
          rw [List.getElem_cons_succ, cells, List.map_cons, offset, List.take_succ_cons,
            List.sum_cons, List.flatten_cons, ← List.drop_drop, List.drop_left' rfl]
          exact hrest

end HftProj.Lib.Scatter
