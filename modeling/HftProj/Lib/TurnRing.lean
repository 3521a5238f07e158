import Mathlib.Data.List.GetD
import Mathlib.Data.Nat.Count
import Mathlib.Tactic.Ring

/-!
# A ring of turns

One thread publishes records in turn, the other returns them in turn. Turn `t` uses slot `t % n`:
the record is written there, then the slot's mark is set to the turn; a counter of the slot says
how often it has been returned. A turn may be written once the counter has reached the number of
earlier turns on the slot. Then no record changes between its publication and its return.
-/

namespace HftProj.Lib.TurnRing

variable {α : Type*} {n : ℕ}

/-- The words of the ring. -/
structure Words (α : Type*) where
  slots : ℕ → α
  filled : ℕ → Option ℕ
  freed : ℕ → ℕ

namespace Words

def put (r : Words α) (i : ℕ) (a : α) : Words α := { r with slots := Function.update r.slots i a }

def mark (r : Words α) (i t : ℕ) : Words α :=
  { r with filled := Function.update r.filled i (some t) }

def give (r : Words α) (i : ℕ) : Words α :=
  { r with freed := Function.update r.freed i (r.freed i + 1) }

end Words

/-- How many turns below `k` use a slot. -/
def uses (n i k : ℕ) : ℕ := Nat.count (fun t => t % n = i) k

theorem uses_succ (n i k : ℕ) : uses n i (k + 1) = uses n i k + if k % n = i then 1 else 0 :=
  Nat.count_succ ..

/-- Turn `n * j + i` is number `j` on its slot. -/
theorem lt_uses_iff {i : ℕ} (hi : i < n) (j k : ℕ) : j < uses n i k ↔ n * j + i < k := by
  induction k generalizing j with
  | zero => simp [uses]
  | succ k ih =>
      have hk := Nat.div_add_mod k n
      rw [uses_succ]
      split
      · next hslot =>
        -- The turn is the next on the slot.
        have hcount : uses n i k = k / n := by
          apply Nat.le_antisymm
          · by_contra hlt
            have habove := (ih (k / n)).mp (Nat.lt_of_not_le hlt)
            omega
          · apply Nat.le_of_not_lt
            intro hlt
            have hbelow := (ih (uses n i k)).not.mp (Nat.lt_irrefl _)
            have hmul : n * (uses n i k + 1) ≤ n * (k / n) := Nat.mul_le_mul_left n hlt
            rw [Nat.mul_succ] at hmul
            omega
        rw [hcount, Nat.lt_succ_iff, Nat.lt_succ_iff]
        constructor
        · intro hj
          have hmul := Nat.mul_le_mul_left n hj
          omega
        · intro hj
          apply Nat.le_of_mul_le_mul_left _ (Nat.zero_lt_of_lt hi)
          omega
      · next hslot =>
        rw [Nat.add_zero, ih]
        constructor
        · exact fun h => Nat.lt_succ_of_lt h
        · intro h
          apply Nat.lt_of_le_of_ne (Nat.le_of_lt_succ h)
          intro heq
          apply hslot
          rw [← heq, Nat.mul_add_mod, Nat.mod_eq_of_lt hi]

/-- The counter has reached the earlier turns of the slot when the turn is less than a ring ahead
of the returns. -/
theorem div_le_uses_iff (hn : 0 < n) (t k : ℕ) : t / n ≤ uses n (t % n) k ↔ t < k + n := by
  have ht := Nat.div_add_mod t n
  have hr := Nat.mod_lt t hn
  obtain hzero | hpos := Nat.eq_zero_or_pos (t / n)
  · rw [hzero, Nat.mul_zero] at ht
    rw [hzero]
    exact ⟨fun _ => by omega, fun _ => Nat.zero_le _⟩
  · obtain ⟨q, hq⟩ := Nat.exists_eq_succ_of_ne_zero (Nat.ne_of_gt hpos)
    rw [hq, Nat.mul_succ] at ht
    rw [hq, Nat.succ_le_iff, lt_uses_iff hr]
    omega

theorem mod_ne_of_lt {s t : ℕ} (hst : s < t) (hlt : t < s + n) : s % n ≠ t % n := by
  intro heq
  have hmod : (t - s) % n = 0 := Nat.sub_mod_eq_zero_of_mod_eq heq.symm
  rw [Nat.mod_eq_of_lt (by omega)] at hmod
  omega

/-- The ring after the records of `log` have been published and the first `back` turns have been
returned. -/
structure Holds (n : ℕ) (log : List α) (back : ℕ) (r : Words α) : Prop where
  back_le : back ≤ log.length
  ahead : log.length ≤ back + n
  freed : ∀ i < n, r.freed i = uses n i back
  slot : ∀ t (ht : t < log.length), back ≤ t → r.slots (t % n) = log[t]
  mark : ∀ t < log.length, back ≤ t → r.filled (t % n) = some t
  marked : ∀ i t, r.filled i = some t → t < log.length

section Rules

variable {log : List α} {back : ℕ} {r : Words α}

/-- Turn `t` may be written. -/
theorem Holds.free_iff (h : Holds n log back r) (hn : 0 < n) (t : ℕ) :
    t / n ≤ r.freed (t % n) ↔ t < back + n := by
  rw [h.freed _ (Nat.mod_lt t hn), div_le_uses_iff hn]

/-- Turn `t` has been returned. -/
theorem Holds.returned_iff (h : Holds n log back r) (hn : 0 < n) (t : ℕ) :
    t / n + 1 ≤ r.freed (t % n) ↔ t < back := by
  rw [h.freed _ (Nat.mod_lt t hn), Nat.succ_le_iff, lt_uses_iff (Nat.mod_lt t hn),
    Nat.div_add_mod]

/-- Writing the next turn's slot disturbs no turn in flight. -/
theorem Holds.put (h : Holds n log back r) (hfree : log.length < back + n) (a : α) :
    Holds n log back (r.put (log.length % n) a) where
  back_le := h.back_le
  ahead := h.ahead
  freed := h.freed
  slot t ht hback :=
    (Function.update_of_ne (mod_ne_of_lt ht (by omega)) _ _).trans (h.slot t ht hback)
  mark := h.mark
  marked := h.marked

/-- The mark publishes what the slot holds. -/
theorem Holds.publish (h : Holds n log back r) (hfree : log.length < back + n) :
    Holds n (log ++ [r.slots (log.length % n)]) back (r.mark (log.length % n) log.length) := by
  have hlen : (log ++ [r.slots (log.length % n)]).length = log.length + 1 := by
    rw [List.length_append, List.length_singleton]
  constructor
  · rw [hlen]
    exact Nat.le_succ_of_le h.back_le
  · rw [hlen]
    exact hfree
  · exact h.freed
  · intro t ht hback
    obtain hold | rfl := Nat.lt_succ_iff_lt_or_eq.mp (hlen ▸ ht)
    · rw [List.getElem_append_left hold]
      exact h.slot t hold hback
    · rw [List.getElem_concat_length rfl]
      rfl
  · intro t ht hback
    obtain hold | rfl := Nat.lt_succ_iff_lt_or_eq.mp (hlen ▸ ht)
    · exact (Function.update_of_ne (mod_ne_of_lt hold (by omega)) _ _).trans (h.mark t hold hback)
    · exact Function.update_self ..
  · intro i t hmark
    rw [hlen]
    obtain rfl | hi := eq_or_ne i (log.length % n)
    · have hsome := (Function.update_self _ _ r.filled).symm.trans hmark
      exact Nat.lt_succ_of_le (Nat.le_of_eq (Option.some_inj.mp hsome).symm)
    · have hold := (Function.update_of_ne hi _ r.filled).symm.trans hmark
      exact Nat.lt_succ_of_lt (h.marked i t hold)

/-- Returning the oldest turn. -/
theorem Holds.give (h : Holds n log back r) (hback : back < log.length) :
    Holds n log (back + 1) (r.give (back % n)) where
  back_le := hback
  ahead := h.ahead.trans (by omega)
  freed i hi := by
    rw [uses_succ, ← h.freed i hi]
    obtain rfl | hne := eq_or_ne i (back % n)
    · rw [if_pos rfl]
      exact Function.update_self ..
    · rw [if_neg (Ne.symm hne)]
      exact Function.update_of_ne hne ..
  slot t ht hle := h.slot t ht (Nat.le_of_succ_le hle)
  mark t ht hle := h.mark t ht (Nat.le_of_succ_le hle)
  marked := h.marked

theorem Holds.start (filler : α) : Holds n [] 0 ⟨fun _ => filler, fun _ => none, fun _ => 0⟩ where
  back_le := Nat.le_refl 0
  ahead := Nat.zero_le _
  freed _ _ := (Nat.count_zero _).symm
  slot t ht _ := absurd ht (Nat.not_lt_zero t)
  mark t ht _ := absurd ht (Nat.not_lt_zero t)
  marked _ _ h := nomatch h

end Rules

end HftProj.Lib.TurnRing
