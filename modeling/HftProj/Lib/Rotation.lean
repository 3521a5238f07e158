import Mathlib.Data.BitVec
import Mathlib.Data.List.Induction
import Mathlib.Tactic.Common

/-!
# Rotations of 64-bit words

Rotations distribute over XOR and add up. A chain `h ← rotate h r ⊕ t` over a list of terms is
one rotation of the start value, XORed with each term rotated by its distance from the end.
-/

namespace HftProj.Lib

/-- A bit of a rotated word, read at one index modulo the width. -/
theorem getLsbD_rotateLeft_mod (x : BitVec 64) (k i : ℕ) (hi : i < 64) :
    (x.rotateLeft k).getLsbD i = x.getLsbD ((i + 64 - k % 64) % 64) := by
  rcases Nat.lt_or_ge i (k % 64) with hlow | hhigh
  · have hindex : (i + 64 - k % 64) % 64 = 64 - k % 64 + i := by omega
    rw [BitVec.getLsbD_rotateLeft, hindex]
    simp [hlow]
  · have hindex : (i + 64 - k % 64) % 64 = i - k % 64 := by omega
    rw [BitVec.getLsbD_rotateLeft, hindex]
    simp [Nat.not_lt.mpr hhigh, hi]

theorem rotateLeft_xor (x y : BitVec 64) (k : ℕ) :
    (x ^^^ y).rotateLeft k = x.rotateLeft k ^^^ y.rotateLeft k := by
  apply BitVec.eq_of_getLsbD_eq
  intro i hi
  simp [getLsbD_rotateLeft_mod _ _ _ hi]

theorem rotateLeft_rotateLeft (x : BitVec 64) (j k : ℕ) :
    (x.rotateLeft j).rotateLeft k = x.rotateLeft (j + k) := by
  apply BitVec.eq_of_getLsbD_eq
  intro i hi
  rw [getLsbD_rotateLeft_mod _ _ _ hi, getLsbD_rotateLeft_mod _ _ _ (Nat.mod_lt _ (by decide)),
    getLsbD_rotateLeft_mod _ _ _ hi]
  congr 1
  omega

theorem rotateLeft_zero (x : BitVec 64) : x.rotateLeft 0 = x := by
  apply BitVec.eq_of_getLsbD_eq
  intro i hi
  rw [getLsbD_rotateLeft_mod _ _ _ hi]
  congr 1
  omega

theorem rotateLeft_mod (x : BitVec 64) (k : ℕ) : x.rotateLeft (k % 64) = x.rotateLeft k :=
  BitVec.rotateLeft_mod_eq_rotateLeft

section Chain

variable (r : ℕ)

/-- Each term rotated by its distance from the end of the list. -/
def rotComposite (ts : List (BitVec 64)) : BitVec 64 :=
  ts.zipIdx.foldl (fun b p => b ^^^ p.1.rotateLeft (r * (ts.length - 1 - p.2))) 0#64

theorem foldl_xor_start {α : Type*} (g : α → BitVec 64) (xs : List α) (h : BitVec 64) :
    xs.foldl (fun b x => b ^^^ g x) h = h ^^^ xs.foldl (fun b x => b ^^^ g x) 0#64 := by
  induction xs generalizing h with
  | nil => exact (BitVec.xor_zero).symm
  | cons x xs ih =>
      rw [List.foldl_cons, List.foldl_cons, ih, ih (0#64 ^^^ g x), BitVec.zero_xor,
        BitVec.xor_assoc]

theorem rotComposite_cons (t : BitVec 64) (ts : List (BitVec 64)) :
    rotComposite r (t :: ts) = t.rotateLeft (r * ts.length) ^^^ rotComposite r ts := by
  have hshift : (ts.zipIdx 1).foldl
      (fun b p => b ^^^ p.1.rotateLeft (r * ((t :: ts).length - 1 - p.2))) 0#64 =
      rotComposite r ts := by
    rw [List.zipIdx_eq_map_add, List.foldl_map, rotComposite]
    congr 1
    funext b p
    show b ^^^ p.1.rotateLeft (r * (ts.length - (1 + p.2))) = _
    rw [Nat.sub_add_eq]
  rw [rotComposite, List.zipIdx_cons, List.foldl_cons, foldl_xor_start, Nat.zero_add, hshift,
    BitVec.zero_xor, List.length_cons, Nat.sub_zero, Nat.add_sub_cancel]

/-- The chain in closed form. -/
theorem foldl_rotate_xor (h : BitVec 64) (ts : List (BitVec 64)) :
    ts.foldl (fun a t => a.rotateLeft r ^^^ t) h =
      h.rotateLeft (r * ts.length) ^^^ rotComposite r ts := by
  induction ts generalizing h with
  | nil =>
      rw [List.length_nil, Nat.mul_zero, rotateLeft_zero]
      exact (BitVec.xor_zero).symm
  | cons t ts ih =>
      rw [List.foldl_cons, ih, rotComposite_cons, rotateLeft_xor, rotateLeft_rotateLeft,
        BitVec.xor_assoc, List.length_cons, Nat.mul_succ, Nat.add_comm r]

end Chain

end HftProj.Lib
