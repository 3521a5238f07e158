import Mathlib.Data.List.Basic
import Mathlib.Tactic.Common

/-!
# ITCH 5.0 payload layer

Only the length table and `validate` are on the ingest path. A message is
accepted when its type byte is known and its length is the table's.
-/

namespace HftProj.Protocol.Itch5

/-- The non-zero entries of the source's 256-entry array. -/
def lengthTable : List (UInt8 × ℕ) :=
  [('S'.toUInt8, 12), ('R'.toUInt8, 39), ('H'.toUInt8, 25), ('Y'.toUInt8, 20),
    ('L'.toUInt8, 26), ('V'.toUInt8, 35), ('W'.toUInt8, 12), ('K'.toUInt8, 28),
    ('J'.toUInt8, 35), ('h'.toUInt8, 21), ('A'.toUInt8, 36), ('F'.toUInt8, 40),
    ('E'.toUInt8, 31), ('C'.toUInt8, 36), ('X'.toUInt8, 23), ('D'.toUInt8, 19),
    ('U'.toUInt8, 35), ('P'.toUInt8, 44), ('Q'.toUInt8, 40), ('B'.toUInt8, 19),
    ('I'.toUInt8, 50), ('N'.toUInt8, 20)]

/-- Total wire length for each type byte; 0 is unknown. -/
def LENGTH (t : UInt8) : ℕ := (lengthTable.lookup t).getD 0

inductive ItchError where
  | empty
  | unknownType (t : UInt8)
  | lengthMismatch (expected got : ℕ)
  deriving DecidableEq

def validate : List UInt8 → Except ItchError Unit
  | [] => .error .empty
  | t :: rest =>
      let expected := LENGTH t
      if expected = 0 then .error (.unknownType t)
      else if (t :: rest).length ≠ expected then
        .error (.lengthMismatch expected (t :: rest).length)
      else .ok ()

/-- Every known type is 12 to 50 bytes long. -/
theorem length_bounds {t : UInt8} (h : LENGTH t ≠ 0) : 12 ≤ LENGTH t ∧ LENGTH t ≤ 50 := by
  have hall : ∀ p ∈ lengthTable, 12 ≤ p.2 ∧ p.2 ≤ 50 := by decide
  unfold LENGTH at h ⊢
  cases hl : lengthTable.lookup t with
  | none => simp [hl] at h
  | some n =>
      obtain ⟨l₁, l₂, hl, _⟩ := List.lookup_eq_some_iff.mp hl
      exact hall (t, n) (by simp [hl])

/-- An accepted message is 12 to 50 bytes long. -/
theorem validate_length {msg : List UInt8} (h : validate msg = .ok ()) :
    12 ≤ msg.length ∧ msg.length ≤ 50 := by
  cases msg with
  | nil => simp [validate] at h
  | cons t rest =>
      simp only [validate] at h
      split at h
      · cases h
      · rename_i hknown
        split at h
        · cases h
        · rename_i hlen
          rw [not_not.mp hlen]
          exact length_bounds hknown

/-- An accepted message has its type's length. -/
theorem validate_exact {msg : List UInt8} (h : validate msg = .ok ()) :
    msg.length = LENGTH (msg.getD 0 0) := by
  cases msg with
  | nil => cases h
  | cons t rest =>
      simp only [validate] at h
      split at h
      · cases h
      · split at h
        · cases h
        · rename_i hsame
          exact not_not.mp hsame

end HftProj.Protocol.Itch5
