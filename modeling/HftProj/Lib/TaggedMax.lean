import Mathlib.Data.List.Perm.Basic
import Mathlib.Order.BoundedOrder.Basic
import Mathlib.Order.Lattice
import Mathlib.Tactic.Common

/-!
# The tagged maximum

A register keeps the write with the greatest key, the one it holds on a tie. The least key marks
a register that holds no write. Over writes whose keys are distinct the register of a collection
depends neither on the order of the writes nor on how they are grouped.
-/

namespace HftProj.Lib.TaggedMax

variable {K V : Type*} [LinearOrder K] [OrderBot K]

/-- The later write where its key is greater. -/
def merge (r s : K × V) : K × V := if r.1 < s.1 then s else r

/-- The empty register, with a value that is not read. -/
def empty (v : V) : K × V := (⊥, v)

/-- A register holds the greatest write of a collection, or none where all keys are the least. -/
def Holds (v : V) (r : K × V) (H : List (K × V)) : Prop :=
  (r = empty v ∧ ∀ a ∈ H, a.1 = ⊥) ∨ (r.1 ≠ ⊥ ∧ r ∈ H ∧ ∀ a ∈ H, a.1 ≤ r.1)

/-- Writes with the same key, other than the least, are the same. -/
def Unique (H : List (K × V)) : Prop := ∀ a ∈ H, ∀ b ∈ H, a.1 = b.1 → a.1 ≠ ⊥ → a = b

variable {v : V} {r s : K × V} {H J : List (K × V)}

omit [OrderBot K] in
theorem merge_assoc (a b c : K × V) : merge (merge a b) c = merge a (merge b c) := by
  rcases lt_or_ge a.1 b.1 with hab | hab
  · rcases lt_or_ge b.1 c.1 with hbc | hbc
    · rw [merge, merge, merge, merge, if_pos hab, if_pos hbc, if_pos (hab.trans hbc)]
    · rw [merge, merge, merge, merge, if_pos hab, if_neg (not_lt.mpr hbc), if_pos hab]
  · rcases lt_or_ge b.1 c.1 with hbc | hbc
    · rw [merge, merge, merge, merge, if_neg (not_lt.mpr hab), if_pos hbc]
    · rw [merge, merge, merge, merge, if_neg (not_lt.mpr hab), if_neg (not_lt.mpr hbc),
        if_neg (not_lt.mpr (hbc.trans hab)), if_neg (not_lt.mpr hab)]

theorem merge_empty (r : K × V) (v : V) : merge r (empty v) = r := if_neg not_lt_bot

theorem holds_nil : Holds v (empty v) ([] : List (K × V)) :=
  Or.inl ⟨rfl, fun _ ha => absurd ha List.not_mem_nil⟩

/-- No write of the collection has a greater key. -/
theorem Holds.le (h : Holds v r H) : ∀ a ∈ H, a.1 ≤ r.1 := by
  rcases h with ⟨-, hbot⟩ | ⟨-, -, hmax⟩
  · intro a ha
    rw [hbot a ha]
    exact bot_le
  · exact hmax

theorem Holds.mem (h : Holds v r H) (hne : r.1 ≠ ⊥) : r ∈ H := by
  rcases h with ⟨rfl, -⟩ | ⟨-, hmem, -⟩
  · exact absurd rfl hne
  · exact hmem

theorem holds_single (a : K × V) : Holds v (merge (empty v) a) [a] := by
  rw [merge]
  split
  · rename_i hlt
    refine Or.inr ⟨ne_bot_of_gt hlt, List.mem_singleton_self a, fun b hb => ?_⟩
    rw [List.mem_singleton.mp hb]
  · rename_i hle
    refine Or.inl ⟨rfl, fun b hb => ?_⟩
    rw [List.mem_singleton.mp hb]
    exact le_bot_iff.mp (not_lt.mp hle)

/-- The registers of two parts merge to the register of both. -/
theorem Holds.append (hr : Holds v r H) (hs : Holds v s J) : Holds v (merge r s) (H ++ J) := by
  have hle : ∀ a ∈ H ++ J, a.1 ≤ max r.1 s.1 := by
    intro a ha
    rcases List.mem_append.mp ha with hH | hJ
    · exact (hr.le a hH).trans (le_max_left _ _)
    · exact (hs.le a hJ).trans (le_max_right _ _)
  rw [merge]
  split
  · rename_i hlt
    rw [max_eq_right hlt.le] at hle
    have hne := ne_bot_of_gt hlt
    exact Or.inr ⟨hne, List.mem_append_right H (hs.mem hne), hle⟩
  · rename_i hge
    rw [max_eq_left (not_lt.mp hge)] at hle
    rcases hr with ⟨rfl, -⟩ | ⟨hne, hmem, -⟩
    · exact Or.inl ⟨rfl, fun a ha => le_bot_iff.mp (hle a ha)⟩
    · exact Or.inr ⟨hne, List.mem_append_left J hmem, hle⟩

/-- One more write. -/
theorem Holds.snoc (h : Holds v r H) (a : K × V) : Holds v (merge r a) (H ++ [a]) := by
  have happend := h.append (holds_single a)
  rwa [← merge_assoc, merge_empty] at happend

theorem Holds.perm (h : Holds v r H) (hperm : H.Perm J) : Holds v r J := by
  rcases h with ⟨hr, hbot⟩ | ⟨hne, hmem, hmax⟩
  · exact Or.inl ⟨hr, fun a ha => hbot a (hperm.mem_iff.mpr ha)⟩
  · exact Or.inr ⟨hne, hperm.mem_iff.mp hmem, fun a ha => hmax a (hperm.mem_iff.mpr ha)⟩

/-- Over distinct keys there is one register. -/
theorem Holds.unique (hu : Unique H) (hr : Holds v r H) (hs : Holds v s H) : r = s := by
  rcases hr with ⟨rfl, hbot⟩ | ⟨hne, hmem, hmax⟩
  · rcases hs with ⟨rfl, -⟩ | ⟨hne', hmem', -⟩
    · rfl
    · exact absurd (hbot s hmem') hne'
  · rcases hs with ⟨rfl, hbot⟩ | ⟨hne', hmem', hmax'⟩
    · exact absurd (hbot r hmem) hne
    · exact hu r hmem s hmem' (le_antisymm (hmax' r hmem) (hmax s hmem')) hne

end HftProj.Lib.TaggedMax
