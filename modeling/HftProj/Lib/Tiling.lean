import Mathlib.Tactic.Common

/-!
# Segments over chosen positions

Some of the positions of a line are chosen. A list of segments covers a stretch if each
segment starts at the next chosen position, with none left out before, between or behind.
-/

namespace HftProj.Lib.Tiling

variable {P : ℕ → Prop} {R : ℕ → ℕ → Prop} {a b c lo hi k : ℕ} {segs : List (ℕ × ℕ)}

/-- No chosen position lies between the two. -/
def Same (P : ℕ → Prop) (a b : ℕ) : Prop := ∀ p, P p → (p < a ↔ p < b)

namespace Same

theorem refl (a : ℕ) : Same P a a := fun _ _ => Iff.rfl

theorem symm (h : Same P a b) : Same P b a := fun p hp => (h p hp).symm

theorem trans (h : Same P a b) (h' : Same P b c) : Same P a c :=
  fun p hp => (h p hp).trans (h' p hp)

theorem of_between (h : ∀ p, a ≤ p → p < b → ¬ P p) (hle : a ≤ b) : Same P a b := by
  intro p hp
  constructor
  · exact fun hlt => Nat.lt_of_lt_of_le hlt hle
  · intro hlt
    by_contra hge
    exact h p (Nat.le_of_not_lt hge) hlt hp

theorem le (h : Same P a b) (hb : P b) : a ≤ b :=
  Nat.le_of_not_lt fun hlt => Nat.lt_irrefl b ((h b hb).mp hlt)

theorem eq (h : Same P a b) (ha : P a) (hb : P b) : a = b :=
  Nat.le_antisymm (h.le hb) (h.symm.le ha)

end Same

/-- The segments cover the chosen positions from `lo` on up to `hi`. -/
@[grind =]
def Covers (P : ℕ → Prop) (R : ℕ → ℕ → Prop) (hi : ℕ) : ℕ → List (ℕ × ℕ) → Prop
  | lo, [] => Same P lo hi
  | lo, (a, k) :: rest => Same P lo a ∧ P a ∧ R a k ∧ Covers P R hi (a + k) rest

namespace Covers

theorem of_same (h : Covers P R hi lo segs) (hsame : Same P b lo) : Covers P R hi b segs := by
  cases segs with
  | nil => exact hsame.trans h
  | cons seg rest =>
      obtain ⟨hlo, hmem, hrel, hrest⟩ := h
      exact ⟨hsame.trans hlo, hmem, hrel, hrest⟩

theorem to_same (h : Covers P R hi lo segs) (hsame : Same P hi b) : Covers P R b lo segs := by
  induction segs generalizing lo with
  | nil => exact Same.trans h hsame
  | cons seg rest ih =>
      obtain ⟨hlo, hmem, hrel, hrest⟩ := h
      exact ⟨hlo, hmem, hrel, ih hrest⟩

theorem snoc (h : Covers P R hi lo segs) (hsame : Same P hi a) (ha : P a) (hrel : R a k) :
    Covers P R (a + k) lo (segs ++ [(a, k)]) := by
  induction segs generalizing lo with
  | nil => exact ⟨Same.trans h hsame, ha, hrel, Same.refl _⟩
  | cons seg rest ih =>
      obtain ⟨hlo, hmem, hseg, hrest⟩ := h
      exact ⟨hlo, hmem, hseg, ih hrest⟩

/-- If a chosen position starts the stretch, then so does the first segment. -/
theorem head {seg : ℕ × ℕ} {rest : List (ℕ × ℕ)} (h : Covers P R hi lo (seg :: rest)) (hlo : P lo) :
    seg.1 = lo ∧ R lo seg.2 ∧ Covers P R hi (lo + seg.2) rest := by
  obtain ⟨hsame, hmem, hrel, hrest⟩ := h
  obtain rfl := hsame.eq hlo hmem
  exact ⟨rfl, hrel, hrest⟩

/-- A chosen position that starts a stretch is covered. -/
theorem ne_nil (h : Covers P R hi lo segs) (hlo : P lo) (hlt : lo < hi) : segs ≠ [] := by
  rintro rfl
  exact Nat.lt_irrefl lo ((Covers.of_same h (Same.refl _) lo hlo).mpr hlt)

/-- A chosen position below the stretch is below its end. -/
theorem lt_end {p : ℕ} (h : Covers P R hi lo segs) (hp : P p) (hlt : p < lo) : p < hi := by
  induction segs generalizing lo with
  | nil => exact (Covers.of_same h (Same.refl _) p hp).mp hlt
  | cons seg rest ih =>
      obtain ⟨hsame, -, -, hrest⟩ := h
      exact ih hrest (Nat.lt_of_lt_of_le ((hsame p hp).mp hlt) (Nat.le_add_right _ _))

theorem forall_rel (h : Covers P R hi lo segs) : ∀ s ∈ segs, R s.1 s.2 := by
  induction segs generalizing lo with
  | nil => exact fun s hs => absurd hs List.not_mem_nil
  | cons t rest ih =>
      obtain ⟨-, -, hrel, hrest⟩ := h
      intro s hs
      obtain rfl | hs := List.mem_cons.mp hs
      · exact hrel
      · exact ih hrest s hs

/-- A cover may be moved by a distance that the chosen positions do not tell apart. -/
theorem shift {d : ℕ} (h : Covers P R hi lo segs) (hP : ∀ p, P (p + d) ↔ P p)
    (hR : ∀ a k, R a k → R (a + d) k) :
    Covers P R (hi + d) (lo + d) (segs.map fun s => (s.1 + d, s.2)) := by
  have hsame : ∀ {a b}, Same P a b → Same P (a + d) (b + d) := by
    intro a b hab p hp
    obtain hlt | hle := Nat.lt_or_ge p d
    · omega
    · obtain ⟨q, rfl⟩ := Nat.exists_eq_add_of_le' hle
      have := hab q ((hP q).mp hp)
      omega
  induction segs generalizing lo with
  | nil => exact hsame h
  | cons s rest ih =>
      obtain ⟨hlo, hmem, hrel, hrest⟩ := h
      refine ⟨hsame hlo, (hP _).mpr hmem, hR _ _ hrel, ?_⟩
      have hstop : s.1 + d + s.2 = s.1 + s.2 + d := Nat.add_right_comm _ _ _
      exact hstop ▸ ih hrest

end Covers

/-! ## Coverage by counting -/

/-- How many segments hold a position. -/
def holding (segs : List (ℕ × ℕ)) (p : ℕ) : ℕ := segs.countP fun s => s.1 ≤ p ∧ p < s.1 + s.2

/-- Every chosen position of the stretch is in one segment, and no other position is in any. -/
def Exact (P : ℕ → Prop) [DecidablePred P] (lo hi : ℕ) (segs : List (ℕ × ℕ)) : Prop :=
  ∀ p, holding segs p = if P p ∧ lo ≤ p ∧ p < hi then 1 else 0

/-- A segment that is not empty and holds chosen positions only. -/
def Solid (P : ℕ → Prop) (s : ℕ × ℕ) : Prop := 0 < s.2 ∧ ∀ p, s.1 ≤ p → p < s.1 + s.2 → P p

variable {s : ℕ × ℕ}

theorem holding_cons (s : ℕ × ℕ) (segs : List (ℕ × ℕ)) (p : ℕ) :
    holding (s :: segs) p = holding segs p + if s.1 ≤ p ∧ p < s.1 + s.2 then 1 else 0 := by
  simp only [holding, List.countP_cons, decide_eq_true_eq]

theorem holding_pos {p : ℕ} (hs : s ∈ segs) (hlo : s.1 ≤ p) (hhi : p < s.1 + s.2) :
    0 < holding segs p :=
  List.countP_pos_iff.mpr ⟨s, hs, decide_eq_true ⟨hlo, hhi⟩⟩

theorem holding_below {p : ℕ} (h : ∀ s ∈ segs, p < s.1) : holding segs p = 0 := by
  rw [holding, List.countP_eq_zero]
  intro s hs
  have := h s hs
  rw [decide_eq_true_eq]
  omega

theorem Solid.start (h : Solid P s) : P s.1 :=
  h.2 s.1 (Nat.le_refl _) (Nat.lt_add_of_pos_right h.1)

theorem Solid.last (h : Solid P s) : P (s.1 + s.2 - 1) := by
  have := h.1
  exact h.2 _ (by omega) (by omega)

section Exact

variable [DecidablePred P]

theorem Covers.exact (h : Covers P R hi lo segs) (hsolid : ∀ s ∈ segs, Solid P s) :
    Exact P lo hi segs := by
  induction segs generalizing lo with
  | nil =>
      intro p
      rw [if_neg]
      · rfl
      · rintro ⟨hp, hlo, hhi⟩
        have hlt := (Same.symm h p hp).mp hhi
        omega
  | cons s rest ih =>
      intro p
      obtain ⟨hsame, hmem, -, hrest⟩ := h
      have hs : Solid P s := hsolid s List.mem_cons_self
      have hle := hsame.le hmem
      have hlast : s.1 + s.2 ≤ hi := by
        have := hrest.lt_end hs.last (by have := hs.1; omega)
        omega
      rw [holding_cons, ih hrest (fun t ht => hsolid t (List.mem_cons_of_mem s ht)) p]
      by_cases hp : P p
      · have hbelow := hsame p hp
        simp only [hp, true_and]
        split_ifs <;> omega
      · have hout : ¬ (s.1 ≤ p ∧ p < s.1 + s.2) := fun hin => hp (hs.2 p hin.1 hin.2)
        rw [if_neg fun hin => hp hin.1, if_neg hout, if_neg fun hin => hp hin.1]

theorem Exact.covers (h : Exact P lo hi segs) (hle : lo ≤ hi) (hsolid : ∀ s ∈ segs, Solid P s)
    (hrel : ∀ s ∈ segs, R s.1 s.2) (hsorted : segs.Pairwise (·.1 < ·.1)) :
    Covers P R hi lo segs := by
  induction segs generalizing lo with
  | nil =>
      apply Same.of_between _ hle
      intro p hlo hhi hp
      have hone := h p
      rw [if_pos ⟨hp, hlo, hhi⟩] at hone
      exact absurd hone Nat.zero_ne_one
  | cons s rest ih =>
      obtain ⟨hfirst, hrest⟩ := List.pairwise_cons.mp hsorted
      have hs : Solid P s := hsolid s List.mem_cons_self
      have hin : ∀ p, s.1 ≤ p → p < s.1 + s.2 → lo ≤ p ∧ p < hi := by
        intro p hlo hhi
        by_contra hout
        have hpos : 0 < holding (s :: rest) p := holding_pos List.mem_cons_self hlo hhi
        rw [h p, if_neg fun hall => hout hall.2] at hpos
        exact Nat.lt_irrefl 0 hpos
      have hstart := hin s.1 (Nat.le_refl _) (Nat.lt_add_of_pos_right hs.1)
      have hlast := hin (s.1 + s.2 - 1) (by have := hs.1; omega) (by have := hs.1; omega)
      have hsame : Same P lo s.1 := by
        apply Same.of_between _ hstart.1
        intro p hlo hhi hp
        have hzero : holding (s :: rest) p = 0 := by
          apply holding_below
          intro t ht
          obtain rfl | ht := List.mem_cons.mp ht
          · exact hhi
          · exact Nat.lt_trans hhi (hfirst t ht)
        have hone := h p
        rw [hzero, if_pos ⟨hp, hlo, Nat.lt_trans hhi hstart.2⟩] at hone
        exact absurd hone Nat.zero_ne_one
      refine ⟨hsame, hs.start, hrel s List.mem_cons_self, ?_⟩
      refine ih ?_ (by omega) (fun t ht => hsolid t (List.mem_cons_of_mem s ht))
        (fun t ht => hrel t (List.mem_cons_of_mem s ht)) hrest
      intro p
      have hall := h p
      rw [holding_cons] at hall
      by_cases hp : P p
      · have hbelow := hsame p hp
        simp only [hp, true_and] at hall ⊢
        split_ifs at hall ⊢ <;> omega
      · have hout : ¬ (s.1 ≤ p ∧ p < s.1 + s.2) := fun hin => hp (hs.2 p hin.1 hin.2)
        rw [if_neg hout, if_neg fun hin => hp hin.1] at hall
        rw [if_neg fun hin => hp hin.1]
        exact hall

end Exact

end HftProj.Lib.Tiling
