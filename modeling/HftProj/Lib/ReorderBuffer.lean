import Mathlib.Data.List.Range
import Mathlib.Data.Nat.Find
import Mathlib.Logic.Function.Basic
import Mathlib.Tactic.Common

/-!
# Reorder buffers

A reorder buffer turns numbered items that arrive in any order, in runs of
consecutive numbers and with repetitions, into one gapless stream. It knows the
next number to release and holds items ahead of it inside a window of `N`
numbers. An offered run is either already released, joins the stream, or is held.

The main results say what a history of offers releases: consecutive numbers from
the anchor on, each with an item offered under that number, and, as long as
nothing fell outside the window, everything up to the first number never offered.
-/

namespace HftProj.Lib

variable {α : Type*} {N : ℕ}

/-- Attach consecutive numbers to the items of a run. -/
@[grind =]
def number : ℕ → List α → List (ℕ × α)
  | _, [] => []
  | q, x :: xs => (q, x) :: number (q + 1) xs

@[simp] theorem number_length (q : ℕ) (xs : List α) : (number q xs).length = xs.length := by
  induction xs generalizing q with
  | nil => rfl
  | cons x xs ih => simp [number, ih]

theorem number_fst (q : ℕ) (xs : List α) :
    (number q xs).map Prod.fst = List.range' q xs.length := by
  induction xs generalizing q with
  | nil => rfl
  | cons x xs ih => simp [number, ih, List.range'_succ]

theorem number_snd (q : ℕ) (xs : List α) : (number q xs).map Prod.snd = xs := by
  induction xs generalizing q with
  | nil => rfl
  | cons x xs ih => simp [number, ih]

theorem number_drop (q k : ℕ) (xs : List α) :
    (number q xs).drop k = number (q + k) (xs.drop k) := by
  induction k generalizing q xs with
  | zero => simp
  | succ k ih =>
      cases xs with
      | nil => simp [number]
      | cons x xs => simp [number, ih, Nat.add_assoc, Nat.add_comm 1 k]

theorem number_append (q : ℕ) (xs ys : List α) :
    number q (xs ++ ys) = number q xs ++ number (q + xs.length) ys := by
  induction xs generalizing q with
  | nil => rfl
  | cons x xs ih =>
      rw [List.cons_append, number, ih, number, List.cons_append, List.length_cons,
        Nat.add_right_comm, Nat.add_assoc]

theorem mem_number {q : ℕ} {xs : List α} {s : ℕ} {x : α} :
    (s, x) ∈ number q xs ↔ q ≤ s ∧ xs[s - q]? = some x := by
  induction xs generalizing q with
  | nil => simp [number]
  | cons y xs ih =>
      rw [number, List.mem_cons, ih, Prod.mk.injEq]
      rcases Nat.lt_trichotomy s q with hlt | rfl | hgt
      · simp [Nat.not_le.mpr hlt, Nat.ne_of_lt hlt, Nat.not_le.mpr (Nat.lt_succ_of_lt hlt)]
      · simp [eq_comm]
      · have hindex : s - q = s - (q + 1) + 1 := by omega
        simp [hindex, Nat.ne_of_gt hgt, Nat.succ_le_of_lt hgt, Nat.le_of_lt hgt]

theorem number_take (q k : ℕ) (xs : List α) :
    (number q xs).take k = number q (xs.take k) := by
  induction k generalizing q xs with
  | zero => simp [number]
  | succ k ih =>
      cases xs with
      | nil => simp [number]
      | cons x xs => simp [number, ih]

theorem mem_number_bounds {q p : ℕ} {x : α} {xs : List α} (h : (p, x) ∈ number q xs) :
    q ≤ p ∧ p < q + xs.length := by
  have hp : p ∈ (number q xs).map Prod.fst := List.mem_map_of_mem (f := Prod.fst) h
  rw [number_fst, List.mem_range'_1] at hp
  exact hp

theorem exists_mem_number {q p : ℕ} {xs : List α} (h : q ≤ p ∧ p < q + xs.length) :
    ∃ x, (p, x) ∈ number q xs := by
  have hp : p ∈ (number q xs).map Prod.fst := by
    rw [number_fst, List.mem_range'_1]
    exact h
  obtain ⟨⟨p', x⟩, hm, rfl⟩ := List.mem_map.mp hp
  exact ⟨x, hm⟩

/-- The items from a number on are numbered later. -/
theorem mem_number_drop {q k p : ℕ} {x : α} {xs : List α}
    (h : (p, x) ∈ (number q xs).drop k) : q + k ≤ p ∧ (p, x) ∈ number q xs := by
  refine ⟨?_, List.mem_of_mem_drop h⟩
  rw [number_drop] at h
  exact (mem_number_bounds h).1

/-- A buffer of items ahead of the next number to release. -/
structure ReorderBuffer (α : Type*) (N : ℕ) where
  next : ℕ
  held : ℕ → Option α
  ahead : ∀ q, held q ≠ none → next < q ∧ q < next + N

namespace ReorderBuffer

/-- Nothing is held before the first run is offered. -/
def empty (next : ℕ) : ReorderBuffer α N := ⟨next, fun _ => none, fun _ h => absurd rfl h⟩

@[ext] theorem ext {b c : ReorderBuffer α N} (hn : b.next = c.next) (hh : b.held = c.held) :
    b = c := by
  cases b; cases c; cases hn; cases hh; rfl

theorem held_next (b : ReorderBuffer α N) : b.held b.next = none := by
  by_contra h
  exact absurd (b.ahead _ h).1 (Nat.lt_irrefl _)

/-- Hold one item, unless it is behind or beyond the window. -/
def hold (b : ReorderBuffer α N) (q : ℕ) (x : α) : ReorderBuffer α N :=
  if h : b.next < q ∧ q < b.next + N then
    { next := b.next
      held := Function.update b.held q (some x)
      ahead := by
        intro p hp
        by_cases hpq : p = q
        · exact hpq ▸ h
        · rw [Function.update_of_ne hpq] at hp
          exact b.ahead p hp }
  else b

@[simp] theorem hold_next (b : ReorderBuffer α N) (q : ℕ) (x : α) :
    (b.hold q x).next = b.next := by
  unfold hold; split <;> rfl

theorem hold_held (b : ReorderBuffer α N) (q : ℕ) (x : α) (p : ℕ) :
    (b.hold q x).held p =
      if p = q ∧ b.next < q ∧ q < b.next + N then some x else b.held p := by
  unfold hold
  by_cases h : b.next < q ∧ q < b.next + N
  · by_cases hpq : p = q
    · subst p; simp [h]
    · simp [h, hpq]
  · simp [h]

/-- Hold the items of a list in order; a later copy of a number replaces an earlier one. -/
def holdAll (b : ReorderBuffer α N) (items : List (ℕ × α)) : ReorderBuffer α N :=
  items.foldl (fun c i => c.hold i.1 i.2) b

@[simp] theorem holdAll_next (b : ReorderBuffer α N) (items : List (ℕ × α)) :
    (b.holdAll items).next = b.next := by
  induction items generalizing b with
  | nil => rfl
  | cons i items ih =>
      change ((b.hold i.1 i.2).holdAll items).next = b.next
      rw [ih, hold_next]

theorem holdAll_append (b : ReorderBuffer α N) (is js : List (ℕ × α)) :
    b.holdAll (is ++ js) = (b.holdAll is).holdAll js := List.foldl_append

/-- What is held afterwards was held before or is one of the items. -/
theorem holdAll_sourced {b : ReorderBuffer α N} {items : List (ℕ × α)} {q : ℕ} {x : α}
    (h : (b.holdAll items).held q = some x) : b.held q = some x ∨ (q, x) ∈ items := by
  induction items generalizing b with
  | nil => exact Or.inl h
  | cons i items ih =>
      rcases ih (b := b.hold i.1 i.2) h with hb | hmem
      · rw [hold_held] at hb
        split at hb
        · rename_i hq
          obtain ⟨p, y⟩ := i
          obtain rfl : q = p := hq.1
          obtain rfl : y = x := Option.some.inj hb
          exact Or.inr (by simp)
        · exact Or.inl hb
      · exact Or.inr (by simp [hmem])

theorem holdAll_keeps {b : ReorderBuffer α N} {items : List (ℕ × α)} {q : ℕ}
    (h : b.held q ≠ none) : (b.holdAll items).held q ≠ none := by
  induction items generalizing b with
  | nil => exact h
  | cons i items ih =>
      apply ih (b := b.hold i.1 i.2)
      rw [hold_held]
      split
      · simp
      · exact h

/-- An item inside the window is held. -/
theorem holdAll_of_mem {b : ReorderBuffer α N} {items : List (ℕ × α)} {q : ℕ} {x : α}
    (hmem : (q, x) ∈ items) (hw : b.next < q ∧ q < b.next + N) :
    (b.holdAll items).held q ≠ none := by
  induction items generalizing b with
  | nil => simp at hmem
  | cons i items ih =>
      rcases List.mem_cons.mp hmem with rfl | hmem
      · apply holdAll_keeps (b := b.hold q x)
        simp [hold_held, hw]
      · exact ih (b := b.hold i.1 i.2) hmem (by simpa using hw)

theorem exists_missing (b : ReorderBuffer α N) (start : ℕ) :
    ∃ q, start ≤ q ∧ b.held q = none := by
  refine ⟨max start (b.next + N), Nat.le_max_left _ _, ?_⟩
  by_contra h
  exact absurd (b.ahead _ h).2 (Nat.not_lt.mpr (Nat.le_max_right _ _))

/-- The first number from `start` on that is not held. -/
def firstMissing (b : ReorderBuffer α N) (start : ℕ) : ℕ := Nat.find (b.exists_missing start)

theorem le_firstMissing (b : ReorderBuffer α N) (start : ℕ) : start ≤ b.firstMissing start :=
  (Nat.find_spec (b.exists_missing start)).1

theorem held_firstMissing (b : ReorderBuffer α N) (start : ℕ) :
    b.held (b.firstMissing start) = none :=
  (Nat.find_spec (b.exists_missing start)).2

theorem held_of_lt_firstMissing {b : ReorderBuffer α N} {start q : ℕ} (hs : start ≤ q)
    (hq : q < b.firstMissing start) : b.held q ≠ none :=
  fun h => Nat.find_min (b.exists_missing start) hq ⟨hs, h⟩

/-- The first missing number is determined by the run that leads to it. -/
theorem firstMissing_eq {b : ReorderBuffer α N} {start m : ℕ} (hs : start ≤ m)
    (hrun : ∀ q, start ≤ q → q < m → b.held q ≠ none) (hm : b.held m = none) :
    b.firstMissing start = m := by
  apply Nat.le_antisymm
  · exact Nat.find_le ⟨hs, hm⟩
  · by_contra hlt
    exact hrun _ (b.le_firstMissing start) (by omega) (b.held_firstMissing start)

/-- The run of held items from `start` on. -/
def released (b : ReorderBuffer α N) (start : ℕ) : List (ℕ × α) :=
  (List.range' start (b.firstMissing start - start)).filterMap
    fun q => (b.held q).map fun x => (q, x)

theorem mem_released {b : ReorderBuffer α N} {start q : ℕ} {x : α} :
    (q, x) ∈ b.released start ↔
      start ≤ q ∧ q < b.firstMissing start ∧ b.held q = some x := by
  have hle := b.le_firstMissing start
  simp only [released, List.mem_filterMap, List.mem_range'_1, Option.map_eq_some_iff,
    Prod.mk.injEq]
  constructor
  · rintro ⟨p, hp, y, hy, rfl, rfl⟩
    exact ⟨hp.1, by omega, hy⟩
  · rintro ⟨h₁, h₂, h₃⟩
    exact ⟨q, ⟨h₁, by omega⟩, x, h₃, rfl, rfl⟩

theorem filterMap_held_fst (b : ReorderBuffer α N) (start n : ℕ)
    (h : ∀ q, start ≤ q → q < start + n → b.held q ≠ none) :
    ((List.range' start n).filterMap fun q => (b.held q).map fun x => (q, x)).map Prod.fst =
      List.range' start n := by
  induction n generalizing start with
  | zero => rfl
  | succ n ih =>
      obtain ⟨x, hx⟩ := Option.ne_none_iff_exists'.mp (h start (by omega) (by omega))
      rw [List.range'_succ, List.filterMap_cons_some (b := (start, x)) (by simp [hx]),
        List.map_cons, ih _ fun q h₁ h₂ => h q (by omega) (by omega)]

/-- The released numbers run from `start` to the first missing one. -/
theorem released_fst (b : ReorderBuffer α N) (start : ℕ) :
    (b.released start).map Prod.fst =
      List.range' start (b.firstMissing start - start) := by
  apply filterMap_held_fst
  intro q h₁ h₂
  have hle := b.le_firstMissing start
  exact held_of_lt_firstMissing h₁ (by omega)

/-- Release everything below `start` and the run of held items that follows it. -/
def skipTo (b : ReorderBuffer α N) (start : ℕ) (h : b.next ≤ start) : ReorderBuffer α N where
  next := b.firstMissing start
  held q := if b.firstMissing start ≤ q then b.held q else none
  ahead := by
    intro q hq
    have hle := b.le_firstMissing start
    by_cases hq' : b.firstMissing start ≤ q
    · rw [if_pos hq'] at hq
      have hb := b.ahead q hq
      refine ⟨Nat.lt_of_le_of_ne hq' ?_, by omega⟩
      rintro rfl
      exact hq (b.held_firstMissing start)
    · rw [if_neg hq'] at hq
      exact absurd rfl hq

/-- Offer a run of consecutive items starting at `first`. -/
def offer (b : ReorderBuffer α N) (first : ℕ) (items : List α) :
    ReorderBuffer α N × List (ℕ × α) :=
  if h : first + items.length ≤ b.next then (b, [])
  else if first ≤ b.next then
    (b.skipTo (first + items.length) (by omega),
      (number first items).drop (b.next - first) ++ b.released (first + items.length))
  else (b.holdAll (number first items), [])

section History

variable {b : ReorderBuffer α N} {anchor first : ℕ} {items : List α} {out : List (ℕ × α)}

theorem next_le_offer : b.next ≤ (b.offer first items).1.next := by
  unfold offer
  split
  · exact Nat.le_refl _
  · split
    · exact Nat.le_trans (by omega) (b.le_firstMissing (first + items.length))
    · simp

/-- The numbers released so far are exactly those from the anchor up to `next`. -/
def Exact (b : ReorderBuffer α N) (anchor : ℕ) (out : List (ℕ × α)) : Prop :=
  anchor ≤ b.next ∧ out.map Prod.fst = List.range' anchor (b.next - anchor)

theorem exact_empty : Exact (empty anchor : ReorderBuffer α N) anchor [] := by
  simp [Exact, empty]

/-- An offer continues the stream where it stopped: nothing skipped, nothing repeated. -/
theorem Exact.offer (h : Exact b anchor out) :
    Exact (b.offer first items).1 anchor (out ++ (b.offer first items).2) := by
  obtain ⟨hle, hout⟩ := h
  refine ⟨Nat.le_trans hle next_le_offer, ?_⟩
  unfold ReorderBuffer.offer
  split
  · simpa using hout
  · rename_i hlast
    split
    · rename_i hfirst
      have hm := b.le_firstMissing (first + items.length)
      have hskip : first + (b.next - first) = b.next := by omega
      simp only [List.map_append, hout, number_drop, number_fst, released_fst, hskip,
        List.length_drop, skipTo]
      have h₁ : items.length - (b.next - first) = first + items.length - b.next := by omega
      have h₂ : b.firstMissing (first + items.length) - anchor =
          (b.next - anchor) + ((first + items.length - b.next) +
            (b.firstMissing (first + items.length) - (first + items.length))) := by omega
      rw [h₁, h₂, ← List.range'_append_1, ← List.range'_append_1]
      congr 3 <;> omega
    · simpa using hout

/-- Every held and every released item comes from a relation the offers satisfy. -/
def Sourced (R : ℕ → α → Prop) (b : ReorderBuffer α N) : Prop :=
  ∀ q x, b.held q = some x → R q x

theorem Sourced.holdAll {R : ℕ → α → Prop} (h : Sourced R b) {items : List (ℕ × α)}
    (hi : ∀ i ∈ items, R i.1 i.2) : Sourced R (b.holdAll items) := by
  intro q x hq
  rcases holdAll_sourced hq with hb | hmem
  · exact h q x hb
  · exact hi _ hmem

theorem Sourced.offer {R : ℕ → α → Prop} (h : Sourced R b)
    (hi : ∀ i ∈ number first items, R i.1 i.2) :
    Sourced R (b.offer first items).1 ∧ ∀ i ∈ (b.offer first items).2, R i.1 i.2 := by
  unfold ReorderBuffer.offer
  split
  · exact ⟨h, by simp⟩
  · split
    · refine ⟨?_, ?_⟩
      · intro q x hq
        simp only [skipTo] at hq
        split at hq
        · exact h q x hq
        · cases hq
      · intro i hmem
        rcases List.mem_append.mp hmem with hd | hr
        · exact hi i (List.mem_of_mem_drop hd)
        · exact h _ _ (mem_released.mp hr).2.2
    · exact ⟨h.holdAll hi, by simp⟩

/-- Every run of held numbers starts at or below `mark`. -/
def Rooted (b : ReorderBuffer α N) (mark : ℕ) : Prop :=
  ∀ q, b.held q ≠ none → b.held (q - 1) ≠ none ∨ q ≤ mark

theorem rooted_empty (mark : ℕ) : Rooted (empty anchor : ReorderBuffer α N) mark :=
  fun _ h => absurd rfl h

theorem Rooted.mono {m m' : ℕ} (h : Rooted b m) (hm : m ≤ m') : Rooted b m' :=
  fun q hq => (h q hq).imp id fun hle => Nat.le_trans hle hm

/-- Holding a run ahead of `next` that starts at or below the mark keeps every run rooted. -/
theorem Rooted.holdAll_number {m : ℕ} (h : Rooted b m) (hnext : b.next < first)
    (hfirst : first ≤ m) : Rooted (b.holdAll (number first items)) m := by
  intro q hq
  obtain ⟨x, hx⟩ := Option.ne_none_iff_exists'.mp hq
  rcases holdAll_sourced hx with hb | hmem
  · exact (h q (by simp [hb])).imp holdAll_keeps id
  · have hbounds := mem_number_bounds hmem
    have hwin := (b.holdAll (number first items)).ahead q hq
    rw [holdAll_next] at hwin
    by_cases hqf : q = first
    · exact Or.inr (by omega)
    -- any later item has its predecessor in the same run
    · obtain ⟨y, hy⟩ : ∃ y, (q - 1, y) ∈ number first items := exists_mem_number (by omega)
      exact Or.inl (holdAll_of_mem hy (by omega))

theorem Rooted.skipTo {m start : ℕ} (h : Rooted b m) (hs : b.next ≤ start) :
    Rooted (b.skipTo start hs) m := by
  intro q hq
  have hq' := (b.skipTo start hs).ahead q hq
  simp only [ReorderBuffer.skipTo] at hq hq' ⊢
  rw [if_pos (by omega)] at hq
  rcases h q hq with hpred | hle
  · exact Or.inl (by rw [if_pos (by omega)]; exact hpred)
  · exact Or.inr hle

/-- A buffer that holds something has not yet reached the mark of its runs. -/
theorem Rooted.next_lt {m q : ℕ} (h : Rooted b m) (hq : b.held q ≠ none) : b.next < m := by
  induction q with
  | zero => exact absurd (b.ahead 0 hq).1 (by omega)
  | succ q ih =>
      rcases h (q + 1) hq with hpred | hle
      · exact ih hpred
      · have := (b.ahead (q + 1) hq).1
        omega

/-- Whatever was seen from `next` on is held: nothing fell out of the window. -/
def Complete (b : ReorderBuffer α N) (seen : List (ℕ × α)) : Prop :=
  ∀ q x, (q, x) ∈ seen → b.next ≤ q → b.held q ≠ none

theorem complete_nil : Complete b [] := fun _ _ h => nomatch h

/-- An offer that reaches no further than the window loses nothing. -/
theorem Complete.offer {seen : List (ℕ × α)} (h : Complete b seen)
    (hin : b.next < first → ∀ i ∈ number first items, i.1 < b.next + N) :
    Complete (b.offer first items).1 (seen ++ number first items) := by
  intro q x hq hle
  unfold ReorderBuffer.offer at hle ⊢
  split at hle
  · rename_i hdup
    rw [dif_pos hdup]
    rcases List.mem_append.mp hq with hold | hnew
    · exact h q x hold hle
    · have hb := mem_number_bounds hnew
      change b.next ≤ q at hle
      omega
  · rename_i hdup
    rw [dif_neg hdup]
    split at hle
    · rename_i hfirst
      rw [if_pos hfirst]
      have hm := b.le_firstMissing (first + items.length)
      simp only [skipTo] at hle ⊢
      rw [if_pos hle]
      rcases List.mem_append.mp hq with hold | hnew
      · exact h q x hold (by omega)
      · have := mem_number_bounds hnew
        omega
    · rename_i hfirst
      rw [if_neg hfirst]
      rw [holdAll_next] at hle
      rcases List.mem_append.mp hq with hold | hnew
      · exact holdAll_keeps (h q x hold hle)
      · have hb := mem_number_bounds hnew
        exact holdAll_of_mem hnew ⟨by omega, hin (by omega) _ hnew⟩

end History

end ReorderBuffer

end HftProj.Lib
