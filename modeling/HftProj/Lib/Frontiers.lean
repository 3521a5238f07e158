import Mathlib.Data.List.GetD
import Mathlib.Tactic.Common

/-!
# Frontiers

Groups of entries written one after the other into one list, with the cumulative lengths as the
only record of where each group ends, and the begun block of a list that is cut into blocks.
-/

namespace HftProj.Lib

variable {α β : Type*}

/-! ## Parts -/

/-- The entries from `a` up to `b`. -/
def between (a b : ℕ) (xs : List α) : List α := (xs.take b).drop a

theorem between_self (a : ℕ) (xs : List α) : between a a xs = [] :=
  List.drop_eq_nil_of_le (List.length_take_le a xs)

theorem between_append {a b c : ℕ} (hab : a ≤ b) (hbc : b ≤ c) {xs : List α} (hb : b ≤ xs.length) :
    between a b xs ++ between b c xs = between a c xs := by
  have hsplit : xs.take c = xs.take b ++ between b c xs := by
    have htake : (xs.take c).take b = xs.take b := by rw [List.take_take, Nat.min_eq_left hbc]
    rw [between, ← htake, List.take_append_drop]
  have hlen : a ≤ (xs.take b).length := by
    rw [List.length_take, Nat.min_eq_left hb]
    exact hab
  change (xs.take b).drop a ++ between b c xs = (xs.take c).drop a
  rw [hsplit, List.drop_append_of_le_length hlen]

theorem between_drop {a b : ℕ} (hab : a ≤ b) {xs : List α} (hb : b ≤ xs.length) :
    between a b xs ++ xs.drop b = xs.drop a := by
  have hlen : a ≤ (xs.take b).length := by
    rw [List.length_take, Nat.min_eq_left hb]
    exact hab
  rw [between, ← List.drop_append_of_le_length hlen, List.take_append_drop]

theorem between_snoc {a b : ℕ} {xs : List α} (hb : b ≤ xs.length) (x : α) :
    between a b (xs ++ [x]) = between a b xs := by
  rw [between, between, List.take_append_of_le_length hb]

/-! ## Groups -/

/-- Where the groups end in their concatenation, from zero on. -/
def frontiers (gs : List (List α)) : List ℕ :=
  (List.range (gs.length + 1)).map fun w => (gs.take w).flatten.length

theorem frontiers_nil : frontiers ([] : List (List α)) = [0] := rfl

theorem frontiers_snoc (gs : List (List α)) (g : List α) :
    frontiers (gs ++ [g]) = frontiers gs ++ [(gs.flatten ++ g).length] := by
  rw [frontiers, List.length_append, List.length_singleton, List.range_succ, List.map_append,
    List.map_singleton, List.take_of_length_le (by simp), List.flatten_append, List.flatten_singleton]
  congr 1
  apply List.map_congr_left
  intro w hw
  rw [List.take_append_of_le_length (Nat.lt_succ_iff.mp (List.mem_range.mp hw))]

theorem frontiers_getD {gs : List (List α)} {w : ℕ} (h : w ≤ gs.length) :
    (frontiers gs).getD w 0 = (gs.take w).flatten.length := by
  have hlen : w < (frontiers gs).length := by
    rw [frontiers, List.length_map, List.length_range]
    exact Nat.lt_succ_of_le h
  rw [← List.getElem_eq_getD (h := hlen) 0]
  simp only [frontiers, List.getElem_map, List.getElem_range]

theorem flatten_take_succ {gs : List (List α)} {w : ℕ} (h : w < gs.length) :
    (gs.take (w + 1)).flatten = (gs.take w).flatten ++ gs[w] := by
  rw [List.take_add_one, List.getElem?_eq_getElem h, Option.toList_some, List.flatten_append,
    List.flatten_singleton]

/-- Between two frontiers stands one group. -/
theorem between_frontiers {gs : List (List α)} {w : ℕ} (h : w < gs.length) :
    between ((frontiers gs).getD w 0) ((frontiers gs).getD (w + 1) 0) gs.flatten = gs[w] := by
  have hsplit : gs.flatten = (gs.take (w + 1)).flatten ++ (gs.drop (w + 1)).flatten := by
    rw [← List.flatten_append, List.take_append_drop]
  rw [frontiers_getD h, frontiers_getD (Nat.le_of_lt h), between, hsplit, List.take_left,
    flatten_take_succ h, List.drop_left]

/-- The frontiers climb up to the whole length. -/
theorem frontiers_le {gs : List (List α)} {w : ℕ} (h : w < gs.length) :
    (frontiers gs).getD w 0 ≤ (frontiers gs).getD (w + 1) 0 ∧
      (frontiers gs).getD (w + 1) 0 ≤ gs.flatten.length := by
  rw [frontiers_getD (Nat.le_of_lt h), frontiers_getD h, flatten_take_succ h]
  constructor
  · rw [List.length_append]
    exact Nat.le_add_right _ _
  · have hsplit : gs.flatten = (gs.take (w + 1)).flatten ++ (gs.drop (w + 1)).flatten := by
      rw [← List.flatten_append, List.take_append_drop]
    rw [← flatten_take_succ h, hsplit, List.length_append]
    exact Nat.le_add_right _ _

/-- A value for each group, from the groups before it and the group itself. -/
def withPast (f : List α → List α → β) (gs : List (List α)) : List β :=
  (List.range gs.length).map fun w => f (gs.take w).flatten (gs.getD w [])

theorem withPast_snoc (f : List α → List α → β) (gs : List (List α)) (g : List α) :
    withPast f (gs ++ [g]) = withPast f gs ++ [f gs.flatten g] := by
  rw [withPast, List.length_append, List.length_singleton, List.range_succ, List.map_append,
    List.map_singleton, List.take_left, List.getD_append_right _ _ _ _ (Nat.le_refl _),
    Nat.sub_self]
  congr 1
  apply List.map_congr_left
  intro w hw
  have hlt := List.mem_range.mp hw
  rw [List.take_append_of_le_length (Nat.le_of_lt hlt), List.getD_append _ _ _ _ hlt]

theorem withPast_length (f : List α → List α → β) (gs : List (List α)) :
    (withPast f gs).length = gs.length := by
  rw [withPast, List.length_map, List.length_range]

/-! ## Blocks -/

/-- The begun block behind the whole blocks of `k` entries. -/
def begun (k : ℕ) (xs : List α) : List α := xs.drop (xs.length / k * k)

variable {k : ℕ}

theorem begun_length (xs : List α) : (begun k xs).length = xs.length % k := by
  rw [begun, List.length_drop, Nat.mul_comm, Nat.mod_eq_sub_mul_div]

theorem begun_append_block (xs : List α) : xs.take (xs.length / k * k) ++ begun k xs = xs :=
  List.take_append_drop _ xs

theorem div_succ_of_mod_ne {n : ℕ} (h : (n + 1) % k ≠ 0) : (n + 1) / k = n / k :=
  Nat.succ_div_of_not_dvd fun hdvd => h (Nat.mod_eq_zero_of_dvd hdvd)

theorem begun_snoc {xs : List α} (x : α) (h : (xs.length + 1) % k ≠ 0) :
    begun k (xs ++ [x]) = begun k xs ++ [x] := by
  rw [begun, List.length_append, List.length_singleton, div_succ_of_mod_ne h,
    List.drop_append_of_le_length (Nat.div_mul_le_self _ _), begun]

theorem begun_snoc_full {xs : List α} (x : α) (h : (xs.length + 1) % k = 0) :
    begun k (xs ++ [x]) = [] := by
  apply List.eq_nil_of_length_eq_zero
  rw [begun_length, List.length_append, List.length_singleton, h]

/-- From the begun block on, with one more entry. -/
theorem block_snoc (xs : List α) (x : α) :
    (xs ++ [x]).drop (xs.length / k * k) = begun k xs ++ [x] := by
  rw [List.drop_append_of_le_length (Nat.div_mul_le_self _ _), begun]

end HftProj.Lib
