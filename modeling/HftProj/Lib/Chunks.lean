import Mathlib.Algebra.BigOperators.Group.List.Basic
import Mathlib.Data.List.FinRange
import Mathlib.Data.List.GetD
import Mathlib.Tactic.Common

/-!
# Chunks and lanes

A list cut into chunks of a fixed length, the last one shorter, and a list read by lanes, every
`w`-th element from each lane's start.
-/

namespace HftProj.Lib

variable {α β : Type*}

/-- At most `fuel` chunks. -/
@[grind =]
def chunksFrom (c : ℕ) : ℕ → List α → List (List α)
  | _, [] => []
  | 0, _ => []
  | fuel + 1, x :: xs => (x :: xs).take c :: chunksFrom c fuel ((x :: xs).drop c)

/-- The chunks of a list. -/
def chunksOf (c : ℕ) (xs : List α) : List (List α) := chunksFrom c xs.length xs

/-- A rule for all lists of chunks: the empty list, and a first chunk before the others. -/
theorem chunksFrom_induction {c : ℕ} (hc : 0 < c) {P : ℕ → List α → Prop} (nil : ∀ n, P n [])
    (cons : ∀ n xs, xs ≠ [] → P n (xs.drop c) → P (n + 1) xs) :
    ∀ n xs, xs.length ≤ n → P n xs := by
  intro n
  induction n with
  | zero =>
      intro xs hlen
      rw [List.length_eq_zero_iff.mp (Nat.le_zero.mp hlen)]
      exact nil 0
  | succ n ih =>
      intro xs hlen
      cases xs with
      | nil => exact nil (n + 1)
      | cons x xs =>
          have hdrop : ((x :: xs).drop c).length ≤ n := by
            rw [List.length_drop]
            omega
          exact cons n (x :: xs) (List.cons_ne_nil x xs) (ih _ hdrop)

theorem chunksFrom_cons {c n : ℕ} {xs : List α} (h : xs ≠ []) :
    chunksFrom c (n + 1) xs = xs.take c :: chunksFrom c n (xs.drop c) := by
  cases xs with
  | nil => exact absurd rfl h
  | cons x xs => rfl

theorem chunksFrom_nil (c n : ℕ) : chunksFrom c n ([] : List α) = [] := by
  cases n <;> rfl

/-- The chunks are a partition. -/
theorem chunksOf_flatten {c : ℕ} (hc : 0 < c) (xs : List α) : (chunksOf c xs).flatten = xs := by
  apply chunksFrom_induction hc (P := fun n xs => (chunksFrom c n xs).flatten = xs)
  · intro n
    rw [chunksFrom_nil, List.flatten_nil]
  · intro n ys hne ih
    rw [chunksFrom_cons hne, List.flatten_cons, ih, List.take_append_drop]
  · exact Nat.le_refl _

/-- The states behind each of a list of chunks. -/
@[grind =]
def chunkScan (f : β → List α → β) : β → List (List α) → List β
  | _, [] => []
  | s, c :: cs => f s c :: chunkScan f (f s c) cs

/-- Chunk by chunk the states are those of the elements one by one, if every chunk is. -/
theorem chunkScan_chunks {c : ℕ} (hc : 0 < c) {f : β → List α → β} {step : β → α → β}
    {xs : List α} (hf : ∀ s us, us.Sublist xs → f s us = us.foldl step s) (s : β) :
    chunkScan f s (chunksOf c xs) =
      (List.range ((xs.length + c - 1) / c)).map fun k =>
        (xs.take ((k + 1) * c)).foldl step s := by
  refine chunksFrom_induction hc
    (P := fun n us => us.Sublist xs → ∀ s, chunkScan f s (chunksFrom c n us) =
      (List.range ((us.length + c - 1) / c)).map fun k => (us.take ((k + 1) * c)).foldl step s)
    ?_ ?_ xs.length xs (Nat.le_refl _) (List.Sublist.refl xs) s
  · intro n _ s
    have hzero : (([] : List α).length + c - 1) / c = 0 := by
      rw [List.length_nil, Nat.zero_add]
      exact Nat.div_eq_of_lt (Nat.sub_lt hc Nat.one_pos)
    rw [chunksFrom_nil, hzero]
    rfl
  · intro n us hne ih hsub s
    have hpos : 0 < us.length := List.length_pos_iff.mpr hne
    have hcount : (us.length + c - 1) / c = ((us.drop c).length + c - 1) / c + 1 := by
      rw [List.length_drop]
      rcases Nat.lt_or_ge us.length c with hlt | hge
      · have hsplit : us.length + c - 1 = us.length - 1 + c := by omega
        have hless : us.length - c + c - 1 < c := by omega
        rw [hsplit, Nat.add_div_right _ hc, Nat.div_eq_of_lt hless, Nat.div_eq_of_lt (by omega)]
      · have hsplit : us.length + c - 1 = us.length - c + c - 1 + c := by omega
        rw [hsplit, Nat.add_div_right _ hc]
    rw [chunksFrom_cons hne, chunkScan, hf s _ ((List.take_sublist c us).trans hsub),
      ih ((List.drop_sublist c us).trans hsub), hcount, List.range_succ_eq_map, List.map_cons,
      List.map_map, Nat.zero_add, Nat.one_mul]
    congr 1
    apply List.map_congr_left
    intro k _
    have hnext : (k.succ + 1) * c = c + (k + 1) * c := by
      rw [Nat.succ_eq_add_one, Nat.add_mul (k + 1), Nat.one_mul, Nat.add_comm]
    rw [Function.comp, hnext, List.take_add, List.foldl_append]

theorem chunksOf_map (c : ℕ) (f : α → β) (xs : List α) :
    chunksOf c (xs.map f) = (chunksOf c xs).map (List.map f) := by
  suffices hall : ∀ n (ys : List α),
      chunksFrom c n (ys.map f) = (chunksFrom c n ys).map (List.map f) by
    rw [chunksOf, List.length_map]
    exact hall _ _
  intro n
  induction n with
  | zero =>
      intro ys
      cases ys <;> rfl
  | succ n ih =>
      intro ys
      by_cases hnil : ys = []
      · rw [hnil]
        rfl
      · have hne : ys.map f ≠ [] := fun heq => hnil (List.map_eq_nil_iff.mp heq)
        rw [chunksFrom_cons hne, chunksFrom_cons hnil, List.map_cons, ← List.map_take,
          ← List.map_drop, ih]

theorem chunksOf_length_le {c : ℕ} (hc : 0 < c) (xs : List α) :
    ∀ p ∈ chunksOf c xs, p.length ≤ c := by
  apply chunksFrom_induction hc (P := fun n xs => ∀ p ∈ chunksFrom c n xs, p.length ≤ c)
  · intro n p hp
    rw [chunksFrom_nil] at hp
    exact absurd hp List.not_mem_nil
  · intro n ys hne ih p hp
    rw [chunksFrom_cons hne] at hp
    rcases List.mem_cons.mp hp with rfl | hrest
    · exact List.length_take_le _ _
    · exact ih p hrest
  · exact Nat.le_refl _

/-- There are no more chunks than elements. -/
theorem chunksOf_count {c : ℕ} (hc : 0 < c) (xs : List α) :
    (chunksOf c xs).length ≤ xs.length := by
  apply chunksFrom_induction hc (P := fun n xs => (chunksFrom c n xs).length ≤ xs.length)
  · intro n
    rw [chunksFrom_nil]
    exact Nat.zero_le _
  · intro n ys hne ih
    have hpos := List.length_pos_iff.mpr hne
    rw [List.length_drop] at ih
    rw [chunksFrom_cons hne, List.length_cons]
    omega
  · exact Nat.le_refl _

/-- A nonempty list has a first chunk. -/
theorem chunksOf_ne_nil {c : ℕ} {xs : List α} (h : xs ≠ []) : chunksOf c xs ≠ [] := by
  cases xs with
  | nil => exact absurd rfl h
  | cons x xs =>
      rw [chunksOf, List.length_cons, chunksFrom_cons h]
      exact List.cons_ne_nil _ _

/-- The first elements of a list, read by index. -/
theorem map_getD_range (xs : List α) (d : α) {n : ℕ} (h : n ≤ xs.length) :
    (List.range n).map (fun i => xs.getD i d) = xs.take n := by
  apply List.ext_getElem
  · rw [List.length_map, List.length_range, List.length_take, Nat.min_eq_left h]
  · intro i hi hi'
    rw [List.length_map, List.length_range] at hi
    rw [List.getElem_map, List.getElem_range, List.getElem_take,
      List.getD_eq_getElem _ _ (by omega)]

/-- The elements of a lane. -/
def laneOf (w k : ℕ) (g : ℕ → α) (l : Fin w) : List α :=
  (List.range k).map fun j => g (w * j + l.val)

theorem laneOf_succ (w k : ℕ) (g : ℕ → α) (l : Fin w) :
    laneOf w (k + 1) g l = laneOf w k g l ++ [g (w * k + l.val)] := by
  rw [laneOf, List.range_succ, List.map_append, laneOf, List.map_singleton]

/-- The lanes together are the list. -/
theorem lanes_perm (w k : ℕ) (g : ℕ → α) :
    ((List.finRange w).flatMap (laneOf w k g)).Perm ((List.range (w * k)).map g) := by
  induction k with
  | zero => simp [laneOf]
  | succ k ih =>
      have hlast : ((List.finRange w).flatMap fun l => [g (w * k + l.val)]) =
          (List.range w).map fun l => g (w * k + l) := by
        rw [← List.map_eq_flatMap, ← List.map_coe_finRange_eq_range, List.map_map]
        rfl
      have hrange : (List.range (w * (k + 1))).map g =
          (List.range (w * k)).map g ++ (List.range w).map fun l => g (w * k + l) := by
        rw [Nat.mul_succ, List.range_add, List.map_append, List.map_map]
        rfl
      rw [funext (laneOf_succ w k g), hrange, ← hlast]
      exact (List.flatMap_append_perm _ _ _).symm.trans (ih.append_right _)

theorem laneOf_cons (w k : ℕ) (g : ℕ → α) (l : Fin w) :
    laneOf w (k + 1) g l = g l.val :: laneOf w k (fun j => g (w + j)) l := by
  rw [laneOf, List.range_succ_eq_map, List.map_cons, List.map_map, laneOf, Nat.mul_zero,
    Nat.zero_add]
  congr 1
  apply List.map_congr_left
  intro j _
  rw [Function.comp, Nat.mul_succ]
  congr 1
  omega

end HftProj.Lib
