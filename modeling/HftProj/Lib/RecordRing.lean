import Mathlib.Data.List.Chain
import Mathlib.Tactic.Common

/-!
# A ring of records

Records are published in turn on the slots of a ring, and each slot holds the newest record
that was put on it. The published records are listed newest first.
-/

namespace HftProj.Lib.RecordRing

variable {α : Type*} {n x : ℕ} {slot : α → ℕ} {pre post rs : List α} {r : α}

/-- Each record is on the slot behind its predecessor's. -/
def Rotates (n : ℕ) (slot : α → ℕ) (rs : List α) : Prop :=
  rs.IsChain fun a b => slot a = (slot b + 1) % n

/-- The record that a slot holds. -/
def latest (slot : α → ℕ) (rs : List α) (x : ℕ) : Option α := rs.find? fun r => slot r = x

theorem latest_cons_of_ne (h : slot r ≠ x) : latest slot (r :: rs) x = latest slot rs x :=
  List.find?_cons_of_neg (by simpa using h)

theorem latest_cons_self : latest slot (r :: rs) (slot r) = some r :=
  List.find?_cons_of_pos (by simp)

theorem slot_of_latest (h : latest slot rs x = some r) : slot r = x := by
  have hfound := List.find?_some h
  exact of_decide_eq_true hfound

theorem Rotates.link {front back : List α} {a b : α} (h : Rotates n slot (front ++ a :: b :: back)) :
    slot a = (slot b + 1) % n :=
  (List.isChain_append_cons_cons.mp h).2.1

/-- The slots of the records behind a record are counted from its own. -/
theorem Rotates.slot_add {front mid : List α} {a : α}
    (h : Rotates n slot (front ++ a :: mid ++ r :: post)) :
    slot a = (slot r + (mid.length + 1)) % n := by
  induction mid generalizing front a with
  | nil =>
      rw [List.append_assoc] at h
      exact h.link
  | cons b mid ih =>
      have hb : slot b = (slot r + (mid.length + 1)) % n := by
        apply @ih (front ++ [a])
        rwa [List.append_assoc front]
      rw [List.append_assoc] at h
      calc
        slot a = (slot b + 1) % n := h.link
        _ = (slot r + (mid.length + 1) + 1) % n := by rw [hb, Nat.mod_add_mod]
        _ = (slot r + ((b :: mid).length + 1)) % n := by rw [List.length_cons, Nat.add_assoc]

/-- A record that fewer than `n` records have been published behind is still there. -/
theorem Rotates.latest_self (h : Rotates n slot (pre ++ r :: post)) (hr : slot r < n)
    (hlen : pre.length < n) : latest slot (pre ++ r :: post) (slot r) = some r := by
  have hnone : pre.find? (fun a => slot a = slot r) = none := by
    apply List.find?_eq_none.mpr
    intro a ha hsame
    obtain ⟨front, mid, hpre⟩ := List.append_of_mem ha
    subst hpre
    have hslot := h.slot_add
    rw [of_decide_eq_true hsame] at hslot
    rw [List.length_append, List.length_cons] at hlen
    obtain hlt | hge := Nat.lt_or_ge (slot r + (mid.length + 1)) n
    · rw [Nat.mod_eq_of_lt hlt] at hslot
      omega
    · rw [Nat.mod_eq_sub_mod hge, Nat.mod_eq_of_lt (by omega)] at hslot
      omega
  rw [latest, List.find?_append, hnone, Option.none_or]
  exact latest_cons_self

/-- The slot behind a record's own holds the next record, if there is one. -/
theorem Rotates.latest_next {v : α} (h : Rotates n slot (pre ++ v :: r :: post))
    (hv : slot v < n) (hlen : pre.length < n) :
    latest slot (pre ++ v :: r :: post) ((slot r + 1) % n) = some v :=
  h.link ▸ h.latest_self hv hlen

end HftProj.Lib.RecordRing
