import HftProj.Lib.RoundRobin
import HftProj.Testkit.RxSubmit

/-!
# The lane grid

Chunks of spans are dealt to the lanes in turn. Four projections of a position onto the grid of
a lane are written separately: where a fallback resumes, the lane's entry, its exit, and the end
of its territory when there are two lanes.
-/

namespace HftProj.Testkit.LaneGrid

open HftProj.Lib HftProj.Lib.RoundRobin HftProj.Testkit.RxSubmit

/-- `u64` subtraction. -/
def wrappingSub (a b : ℕ) : ℕ := if b ≤ a then a - b else a + 2 ^ 64 - b

/-- The start of the next own chunk, and where the walk starts. -/
def fallbackGrid (eval laneIdx nLanes : ℕ) : ℕ × ℕ :=
  let chunkId := eval / chunk
  let laneOf := chunkId % nLanes
  let advance := (laneIdx + nLanes - laneOf) % nLanes
  let chunkLo := (chunkId + advance) * chunk
  (chunkLo, max eval chunkLo)

def laneSpanEntry (p laneIdx nLanes : ℕ) : ℕ :=
  let chunkId := p / chunk
  let laneOf := chunkId % nLanes
  if laneOf = laneIdx then p
  else
    let advance := (laneIdx + nLanes - laneOf) % nLanes
    (chunkId + advance) * chunk

def laneSpanExit (rb laneIdx nLanes : ℕ) : ℕ :=
  let entry := laneSpanEntry rb laneIdx nLanes
  if entry = rb ∧ rb % chunk ≠ 0 then rb else wrappingSub entry ((nLanes - 1) * chunk)

def laneEndAt (s lane : ℕ) : ℕ :=
  if s = 0 then 0
  else
    let c := (s - 1) / chunk
    if c &&& 1 = lane &&& 1 then s else c * chunk

/-- The lane's own positions. -/
abbrev OwnSpan (laneIdx nLanes : ℕ) : ℕ → Prop := Own chunk nLanes laneIdx

variable {p q rb s l n : ℕ}

theorem chunk_pos : 0 < chunk := by decide

theorem laneSpanEntry_own (h : OwnSpan l n p) : laneSpanEntry p l n = p := if_pos h

theorem laneSpanEntry_foreign (h : ¬ OwnSpan l n p) :
    laneSpanEntry p l n = (p / chunk + advance n l (p / chunk)) * chunk := if_neg h

/-- The entry is the least own position from a position on. -/
theorem laneSpanEntry_isLeast (hl : l < n) (p : ℕ) :
    IsLeast {q | OwnSpan l n q ∧ p ≤ q} (laneSpanEntry p l n) := by
  by_cases h : OwnSpan l n p
  · rw [laneSpanEntry_own h]
    exact isLeast_own h
  · rw [laneSpanEntry_foreign h]
    exact isLeast_foreign chunk_pos hl h

theorem laneSpanEntry_le (hl : l < n) (p : ℕ) : p ≤ laneSpanEntry p l n :=
  (laneSpanEntry_isLeast hl p).1.2

theorem wrappingSub_turn {k : ℕ} (hpos : 0 < n) (hn : n ≤ k + 1) :
    wrappingSub (k * chunk) ((n - 1) * chunk) = (k + 1 - n) * chunk := by
  have hle : (n - 1) * chunk ≤ k * chunk := Nat.mul_le_mul_right chunk (by omega)
  rw [wrappingSub, if_pos hle, ← Nat.sub_mul]
  congr 1
  omega

/-- Where the lane goes on at the start of one of its chunks, the chunk before it ended a turn
ago. -/
theorem laneSpanExit_turn {k : ℕ} (hl : l < n) (hk : k % n = l) (hentry : laneSpanEntry rb l n = k * chunk)
    (hout : ¬ (laneSpanEntry rb l n = rb ∧ rb % chunk ≠ 0)) (hbelow : rb ≤ k * chunk)
    (hturn : (k + 1 - n) * chunk ≤ rb) (hex : ∃ q, OwnSpan l n q ∧ q < rb) :
    ∃ q, IsGreatest {q | OwnSpan l n q ∧ q < rb} q ∧ laneSpanExit rb l n = q + 1 := by
  obtain ⟨hn, hgreatest⟩ := isGreatest_turn chunk_pos hk hbelow hturn hex
  refine ⟨_, hgreatest, ?_⟩
  have hpos : 0 < (k + 1 - n) * chunk := Nat.mul_pos (by omega) chunk_pos
  calc
    laneSpanExit rb l n = wrappingSub (k * chunk) ((n - 1) * chunk) := by
      rw [laneSpanExit, if_neg hout, hentry]
    _ = (k + 1 - n) * chunk := wrappingSub_turn (Nat.zero_lt_of_lt hl) (by omega)
    _ = (k + 1 - n) * chunk - 1 + 1 := (Nat.sub_add_cancel hpos).symm

/-- The exit is one past the greatest own position below. -/
theorem laneSpanExit_isGreatest (hl : l < n) (hex : ∃ q, OwnSpan l n q ∧ q < rb) :
    ∃ q, IsGreatest {q | OwnSpan l n q ∧ q < rb} q ∧ laneSpanExit rb l n = q + 1 := by
  by_cases hown : OwnSpan l n rb
  · have hentry := laneSpanEntry_own hown
    by_cases hin : rb % chunk = 0
    · have hrb : rb / chunk * chunk = rb := Nat.div_mul_cancel (Nat.dvd_of_mod_eq_zero hin)
      refine laneSpanExit_turn (k := rb / chunk) hl hown ?_ ?_ ?_ ?_ hex
      · rw [hentry, hrb]
      · exact fun h => h.2 hin
      · exact Nat.le_of_eq hrb.symm
      · have hle : rb / chunk + 1 - n ≤ rb / chunk :=
          Nat.sub_le_of_le_add (Nat.add_le_add_left (Nat.zero_lt_of_lt hl) _)
        exact (Nat.mul_le_mul_right chunk hle).trans (Nat.le_of_eq hrb)
    · have hpos : 0 < rb := Nat.pos_of_ne_zero fun h => hin (by rw [h, Nat.zero_mod])
      refine ⟨rb - 1, isGreatest_inside chunk_pos hown hin, ?_⟩
      rw [Nat.sub_add_cancel hpos]
      exact if_pos ⟨hentry, hin⟩
  · have hentry := laneSpanEntry_foreign hown
    have hmod := add_advance_mod hl (rb / chunk)
    have hlt := advance_lt hl (rb / chunk)
    have hle : rb / chunk + advance n l (rb / chunk) + 1 - n ≤ rb / chunk := by
      apply Nat.sub_le_of_le_add
      rw [Nat.add_assoc]
      exact Nat.add_le_add_left hlt _
    refine laneSpanExit_turn hl hmod hentry ?_ ?_ ?_ hex
    · rintro ⟨heq, -⟩
      exact hown (heq ▸ (laneSpanEntry_isLeast hl rb).1.1)
    · exact hentry ▸ laneSpanEntry_le hl rb
    · exact (Nat.mul_le_mul_right chunk hle).trans (Nat.div_mul_le_self rb chunk)

/-- The fallback resumes at the own chunk that holds or follows the cursor, and not before the
cursor. -/
theorem fallbackGrid_isLeast (hl : l < n) (eval : ℕ) :
    IsLeast {q | OwnSpan l n q ∧ chunk ∣ q ∧ eval < q + chunk} (fallbackGrid eval l n).1 ∧
      IsLeast {q | OwnSpan l n q ∧ eval ≤ q} (fallbackGrid eval l n).2 := by
  have hlo : (fallbackGrid eval l n).1 = (eval / chunk + advance n l (eval / chunk)) * chunk := rfl
  have hwalk : (fallbackGrid eval l n).2 = max eval (fallbackGrid eval l n).1 := rfl
  refine ⟨hlo ▸ isLeast_block chunk_pos hl, ?_⟩
  rw [hwalk, hlo]
  by_cases hown : OwnSpan l n eval
  · rw [advance_eq_zero hown, Nat.add_zero, Nat.max_eq_left (Nat.div_mul_le_self eval chunk)]
    exact isLeast_own hown
  · have hleast := isLeast_foreign chunk_pos hl hown
    rw [Nat.max_eq_right hleast.1.2]
    exact hleast

/-! ## Two lanes -/

theorem land_one_eq (a b : ℕ) : a &&& 1 = b &&& 1 ↔ a % 2 = b % 2 := by
  rw [Nat.and_one_is_mod, Nat.and_one_is_mod]

theorem laneEndAt_eq (hs : 0 < s) (hl : l < 2) :
    laneEndAt s l = if (s - 1) / chunk % 2 = l then s else (s - 1) / chunk * chunk := by
  rw [laneEndAt, if_neg (by omega)]
  dsimp only
  simp only [land_one_eq, Nat.mod_eq_of_lt hl]

/-- With two lanes the end of the territory is the exit. -/
theorem laneEndAt_eq_exit (hs : 0 < s) (hl : l < 2) : laneEndAt s l = laneSpanExit s l 2 := by
  rw [laneEndAt_eq hs hl, laneSpanExit, laneSpanEntry, wrappingSub, chunk]
  dsimp only
  split_ifs <;> omega

/-- A position is behind the end of the territory of its lane exactly if it is below. -/
theorem lt_laneEndAt (hl : l < 2) (hown : OwnSpan l 2 q) (s : ℕ) : q < laneEndAt s l ↔ q < s := by
  obtain rfl | hs := Nat.eq_zero_or_pos s
  · rw [laneEndAt, if_pos rfl]
  · rw [OwnSpan, Own, chunk] at hown
    rw [laneEndAt_eq hs hl, chunk]
    split <;> omega

/-- From the end of its territory on a lane's next position is its entry. -/
theorem laneSpanEntry_laneEndAt (hl : l < 2) (s : ℕ) :
    IsLeast {q | OwnSpan l 2 q ∧ laneEndAt s l ≤ q} (laneSpanEntry s l 2) := by
  have hsame : {q | OwnSpan l 2 q ∧ laneEndAt s l ≤ q} = {q | OwnSpan l 2 q ∧ s ≤ q} := by
    ext q
    refine and_congr_right fun hown => ?_
    have := lt_laneEndAt hl hown s
    omega
  rw [hsame]
  exact laneSpanEntry_isLeast hl s

end HftProj.Testkit.LaneGrid
