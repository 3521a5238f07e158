import Mathlib.Data.List.Induction
import Mathlib.Tactic.Common
import Mathlib.Tactic.Linarith

/-!
# 64-bit words as natural numbers

Unsigned 64-bit values are natural numbers below `2 ^ 64`; each operation says
what happens at the top of the range. Byte strings are read in both orders.
-/

namespace HftProj.Lib

@[irreducible] def wrappingAdd (a b : ℕ) : ℕ := (a + b) % 2 ^ 64

@[irreducible] def wrappingSub (a b : ℕ) : ℕ := (a + (2 ^ 64 - b)) % 2 ^ 64

def saturatingAdd (a b : ℕ) : ℕ := min (a + b) (2 ^ 64 - 1)

def checkedAdd (a b : ℕ) : Option ℕ := if a + b < 2 ^ 64 then some (a + b) else none

theorem wrappingAdd_lt (a b : ℕ) : wrappingAdd a b < 2 ^ 64 := by
  rw [wrappingAdd]
  exact Nat.mod_lt _ (by decide)

theorem wrappingAdd_of_lt {a b : ℕ} (h : a + b < 2 ^ 64) : wrappingAdd a b = a + b := by
  rw [wrappingAdd]
  exact Nat.mod_eq_of_lt h

theorem wrappingSub_of_le {a b : ℕ} (hb : b ≤ a) (ha : a < 2 ^ 64) :
    wrappingSub a b = a - b := by
  have hsplit : a + (2 ^ 64 - b) = (a - b) + 2 ^ 64 := by omega
  rw [wrappingSub, hsplit, Nat.add_mod_right, Nat.mod_eq_of_lt (by omega)]

/-- The last of `n` numbers from `a` on, computed from the number behind it. -/
theorem wrappingSub_last {a n : ℕ} (hn : 0 < n) (h : a + n ≤ 2 ^ 64) :
    wrappingSub (wrappingAdd a n) 1 = a + (n - 1) := by
  rw [wrappingSub, wrappingAdd]
  rcases Nat.lt_or_eq_of_le h with hlt | heq
  · rw [Nat.mod_eq_of_lt hlt]
    omega
  · rw [heq, Nat.mod_self]
    omega

theorem wrappingAdd_last {a n : ℕ} (hn : 0 < n) :
    wrappingAdd (a + (n - 1)) 1 = wrappingAdd a n := by
  rw [wrappingAdd, wrappingAdd, show a + (n - 1) + 1 = a + n by omega]

/-- The value of a byte string, most significant byte first. -/
def fromBeBytes (bytes : List UInt8) : ℕ := bytes.foldl (fun n b => n * 256 + b.toNat) 0

/-- The value of a byte string, least significant byte first. -/
@[grind =]
def fromLeBytes : List UInt8 → ℕ
  | [] => 0
  | b :: bytes => b.toNat + 256 * fromLeBytes bytes

theorem fromBeBytes_lt (bytes : List UInt8) : fromBeBytes bytes < 256 ^ bytes.length := by
  induction bytes using List.reverseRecOn with
  | nil => simp [fromBeBytes]
  | append_singleton bytes b ih =>
      have hb := b.toNat_lt
      simp only [fromBeBytes, List.foldl_append, List.foldl_cons, List.foldl_nil,
        List.length_append, List.length_singleton, pow_succ] at ih ⊢
      omega

/-- Strings of one length are told apart by their values. -/
theorem fromLeBytes_injective {xs ys : List UInt8} (hlen : xs.length = ys.length)
    (h : fromLeBytes xs = fromLeBytes ys) : xs = ys := by
  induction xs generalizing ys with
  | nil => exact (List.length_eq_zero_iff.mp hlen.symm).symm
  | cons x xs ih =>
      cases ys with
      | nil => simp at hlen
      | cons y ys =>
          have hx := x.toNat_lt
          have hy := y.toNat_lt
          simp only [fromLeBytes] at h
          have hxy : x = y := UInt8.toNat_inj.mp (by omega)
          have hrest := ih (by simpa using hlen) (by omega)
          rw [hxy, hrest]

/-- The bytes `start, …, end - 1` of a string. -/
def slice {α : Type*} (bytes : List α) (start stop : ℕ) : List α :=
  (bytes.drop start).take (stop - start)

theorem slice_length {α : Type*} {bytes : List α} {start stop : ℕ}
    (h : stop ≤ bytes.length) : (slice bytes start stop).length = stop - start := by
  rw [slice, List.length_take, List.length_drop]
  omega

end HftProj.Lib
