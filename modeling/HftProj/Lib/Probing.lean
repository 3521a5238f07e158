import Mathlib.Data.Set.Card
import Mathlib.Logic.Function.Basic
import Mathlib.Tactic.Common

/-!
# Linear probing with backward-shift deletion

A ring of `n` slots holds entries, each placed at or behind the home slot of its key with no
empty slot in between. A lookup walks from the home slot to the key or to an empty slot. A
deletion empties a slot and moves later entries of the cluster back into the hole as long as
the hole lies on their way.
-/

namespace HftProj.Lib.Probing

/-! ## The ring -/

section Ring

/-- Steps from `a` to `b` around the ring. -/
def dist (n a b : ℕ) : ℕ := if a ≤ b then b - a else b + n - a

def next (n i : ℕ) : ℕ := if i + 1 = n then 0 else i + 1

variable {n a b c p : ℕ}

theorem next_lt (ha : a < n) : next n a < n := by
  rw [next]
  split <;> omega

theorem dist_lt (ha : a < n) (hb : b < n) : dist n a b < n := by
  rw [dist]
  split <;> omega

theorem dist_eq_zero (ha : a < n) : dist n a b = 0 ↔ a = b := by
  rw [dist]
  split <;> omega

@[simp] theorem dist_self (a : ℕ) : dist n a a = 0 := by
  rw [dist, if_pos le_rfl, Nat.sub_self]

theorem dist_inj (ha : a < n) (hb : b < n) (hc : c < n) (h : dist n a b = dist n a c) :
    b = c := by
  simp only [dist] at h
  split_ifs at h <;> omega

/-- A position on the way splits the way. -/
theorem dist_add (ha : a < n) (hb : b < n) (hc : c < n) (h : dist n a b ≤ dist n a c) :
    dist n a c = dist n a b + dist n b c := by
  simp only [dist] at h ⊢
  split_ifs at h ⊢ <;> omega

theorem dist_next_left (ha : a < n) (hb : b < n) (hne : a ≠ b) :
    dist n a b = dist n (next n a) b + 1 := by
  simp only [dist, next]
  split_ifs <;> omega

theorem dist_next_right (ha : a < n) (hne : next n b ≠ a) :
    dist n a (next n b) = dist n a b + 1 := by
  simp only [dist, next] at hne ⊢
  split_ifs at hne ⊢ <;> omega

/-- A slot that lies behind another one is not the last of the ring. -/
theorem next_ne (hb : b < n) (hc : c < n) (h : dist n a b < dist n a c) : next n b ≠ a := by
  simp only [dist, next] at h ⊢
  split_ifs at h ⊢ <;> omega

/-- Whatever is nearer to the target than the hole lies on the way through the hole. -/
theorem dist_lt_of_between (ha : a < n) (hb : b < n) (hc : c < n)
    (h : dist n a b < dist n a c) (hbetween : dist n b p < dist n b c) :
    dist n a p < dist n a c := by
  simp only [dist] at h hbetween ⊢
  split_ifs at h hbetween ⊢ <;> omega

/-- The nearer of two slots to a target lies on the way of the farther one. -/
theorem dist_add_of_le (ha : a < n) (hb : b < n) (h : dist n b c ≤ dist n a c) :
    dist n a c = dist n a b + dist n b c := by
  simp only [dist] at h ⊢
  split_ifs at h ⊢ <;> omega

end Ring

/-! ## Walking to a slot -/

section Scan

variable (n : ℕ) (stop : ℕ → Prop) [DecidablePred stop]

/-- The first slot from `i` on that stops the walk, looking at no more than `fuel` slots. -/
@[grind =]
def scan : ℕ → ℕ → Option ℕ
  | 0, _ => none
  | fuel + 1, i => if stop i then some i else scan fuel (next n i)

variable {n stop}

/-- If some slot stops a walk, then the walk ends at the first one. -/
theorem scan_spec {fuel i z : ℕ} (hi : i < n) (hz : z < n) (hstop : stop z)
    (hfuel : dist n i z < fuel) :
    ∃ s < n, scan n stop fuel i = some s ∧ stop s ∧
      ∀ p < n, dist n i p < dist n i s → ¬stop p := by
  induction fuel generalizing i with
  | zero => exact absurd hfuel (Nat.not_lt_zero _)
  | succ fuel ih =>
      by_cases hs : stop i
      · refine ⟨i, hi, by rw [scan, if_pos hs], hs, fun p hp hlt => ?_⟩
        rw [dist_self] at hlt
        exact absurd hlt (Nat.not_lt_zero _)
      · have hne : i ≠ z := fun h => hs (h ▸ hstop)
        have hstep := dist_next_left hi hz hne
        obtain ⟨s, hsn, hscan, hss, hbefore⟩ := ih (next_lt hi) (by omega)
        have hsi : i ≠ s := fun h => hs (h ▸ hss)
        refine ⟨s, hsn, by rw [scan, if_neg hs, hscan], hss, fun p hp hlt => ?_⟩
        by_cases hpi : i = p
        · exact hpi ▸ hs
        · apply hbefore p hp
          have h₁ := dist_next_left hi hp hpi
          have h₂ := dist_next_left hi hsn hsi
          omega

end Scan

/-! ## Tables -/

section Table

variable {E K : Type*} (n : ℕ) (key : E → K) (home : K → ℕ)

/-- Some slot holds the entry. -/
def Holds (slots : ℕ → Option E) (e : E) : Prop := ∃ s < n, slots s = some e

/-- No key is held twice, and the way from an entry's home to its slot is occupied. -/
structure Probed (slots : ℕ → Option E) : Prop where
  home_lt : ∀ k, home k < n
  unique : ∀ s < n, ∀ t < n, ∀ e e', slots s = some e → slots t = some e' →
    key e = key e' → s = t
  path : ∀ s < n, ∀ e, slots s = some e → ∀ p < n,
    dist n (home (key e)) p < dist n (home (key e)) s → slots p ≠ none

/-- Where a lookup of `k` stops: at an empty slot or at the key. -/
def Stops (slots : ℕ → Option E) (k : K) (p : ℕ) : Prop := ∀ e, slots p = some e → key e = k

variable {n key home} {slots : ℕ → Option E} {k : K} {s : ℕ}

theorem not_stops {p : ℕ} (h : ¬Stops key slots k p) : ∃ e, slots p = some e ∧ key e ≠ k := by
  simpa [Stops] using h

namespace Probed

variable (h : Probed n key home slots)
include h

/-- A walk from the home of a key that passed other keys only and stands at an empty slot
has shown that the key is not held. -/
theorem absent (hs : s < n) (hbefore : ∀ p < n, dist n (home k) p < dist n (home k) s →
    ¬Stops key slots k p) (hnone : slots s = none) {e : E} (he : Holds n slots e) : key e ≠ k := by
  obtain ⟨t, ht, hte⟩ := he
  rintro rfl
  rcases Nat.lt_trichotomy (dist n (home (key e)) s) (dist n (home (key e)) t) with hlt | heq | hgt
  · exact h.path t ht e hte s hs hlt hnone
  · obtain rfl := dist_inj (h.home_lt _) hs ht heq
    rw [hnone] at hte
    cases hte
  · obtain ⟨e', he', hne⟩ := not_stops (hbefore t ht hgt)
    rw [hte] at he'
    cases he'
    exact hne rfl

theorem eq_of_key {e e' : E} (he : Holds n slots e) (he' : Holds n slots e')
    (hkey : key e = key e') : e = e' := by
  obtain ⟨s, hs, hse⟩ := he
  obtain ⟨t, ht, hte⟩ := he'
  obtain rfl := h.unique s hs t ht e e' hse hte hkey
  exact Option.some.inj (hse.symm.trans hte)

/-- A new key goes to the empty slot its walk stops at. -/
theorem insert (hs : s < n) (hnone : slots s = none) {e : E}
    (hbefore : ∀ p < n, dist n (home (key e)) p < dist n (home (key e)) s →
      ¬Stops key slots (key e) p) :
    Probed n key home (Function.update slots s (some e)) := by
  have habsent : ∀ t < n, ∀ e', slots t = some e' → key e' ≠ key e :=
    fun t ht e' hte => h.absent hs hbefore hnone ⟨t, ht, hte⟩
  refine ⟨h.home_lt, fun t ht t' ht' e₁ e₂ h₁ h₂ hkey => ?_, fun t ht e₁ h₁ p hp hlt => ?_⟩
  · rw [Function.update_apply] at h₁ h₂
    split at h₁
    · next hts =>
        split at h₂
        · next hts' => exact hts.trans hts'.symm
        · cases h₁
          exact absurd hkey.symm (habsent t' ht' e₂ h₂)
    · split at h₂
      · cases h₂
        exact absurd hkey (habsent t ht e₁ h₁)
      · exact h.unique t ht t' ht' e₁ e₂ h₁ h₂ hkey
  · rw [Function.update_apply] at h₁ ⊢
    split
    · exact Option.some_ne_none _
    split at h₁
    · next hts =>
        cases h₁
        obtain rfl := hts
        obtain ⟨e', he', -⟩ := not_stops (hbefore p hp hlt)
        rw [he']
        exact Option.some_ne_none _
    · exact h.path t ht e₁ h₁ p hp hlt

/-- An entry is replaced by one of the same key. -/
theorem overwrite {e e' : E} (hold : slots s = some e) (hkey : key e' = key e) :
    Probed n key home (Function.update slots s (some e')) := by
  have hread : ∀ t < n, ∀ e₁, Function.update slots s (some e') t = some e₁ →
      ∃ e₀, slots t = some e₀ ∧ key e₀ = key e₁ := by
    intro t ht e₁ h₁
    rw [Function.update_apply] at h₁
    split at h₁
    · next hts =>
        cases h₁
        exact ⟨e, hts ▸ hold, hkey.symm⟩
    · exact ⟨e₁, h₁, rfl⟩
  refine ⟨h.home_lt, fun t ht t' ht' e₁ e₂ h₁ h₂ hk => ?_, fun t ht e₁ h₁ p hp hlt => ?_⟩
  · obtain ⟨e₁', h₁', hk₁⟩ := hread t ht e₁ h₁
    obtain ⟨e₂', h₂', hk₂⟩ := hread t' ht' e₂ h₂
    exact h.unique t ht t' ht' e₁' e₂' h₁' h₂' (hk₁.trans (hk.trans hk₂.symm))
  · obtain ⟨e₀, h₀, hk⟩ := hread t ht e₁ h₁
    rw [← hk] at hlt
    rw [Function.update_apply]
    split
    · exact Option.some_ne_none _
    · exact h.path t ht e₀ h₀ p hp hlt

omit h in
theorem holds_insert (hs : s < n) (hnone : slots s = none) {e e' : E} :
    Holds n (Function.update slots s (some e)) e' ↔ e' = e ∨ Holds n slots e' := by
  constructor
  · rintro ⟨t, ht, hte⟩
    rw [Function.update_apply] at hte
    split at hte
    · exact Or.inl (Option.some.inj hte).symm
    · exact Or.inr ⟨t, ht, hte⟩
  · rintro (rfl | ⟨t, ht, hte⟩)
    · exact ⟨s, hs, Function.update_self ..⟩
    · refine ⟨t, ht, ?_⟩
      rw [Function.update_of_ne (fun hts => ?_), hte]
      rw [hts, hnone] at hte
      cases hte

theorem holds_overwrite (hs : s < n) {e e' e₁ : E} (hold : slots s = some e) :
    Holds n (Function.update slots s (some e')) e₁ ↔
      e₁ = e' ∨ (Holds n slots e₁ ∧ key e₁ ≠ key e) := by
  constructor
  · rintro ⟨t, ht, hte⟩
    rw [Function.update_apply] at hte
    split at hte
    · exact Or.inl (Option.some.inj hte).symm
    · next hts =>
        exact Or.inr ⟨⟨t, ht, hte⟩, fun hk => hts (h.unique t ht s hs e₁ e hte hold hk)⟩
  · rintro (rfl | ⟨⟨t, ht, hte⟩, hk⟩)
    · exact ⟨s, hs, Function.update_self ..⟩
    · refine ⟨t, ht, ?_⟩
      rw [Function.update_of_ne (fun hts => ?_), hte]
      rw [hts, hold] at hte
      cases hte
      exact hk rfl

theorem holds_empty (hs : s < n) {e : E} :
    Holds n (Function.update slots s none) e ↔
      Holds n slots e ∧ ∀ e', slots s = some e' → key e ≠ key e' := by
  constructor
  · rintro ⟨t, ht, hte⟩
    rw [Function.update_apply] at hte
    split at hte
    · cases hte
    · next hts =>
        exact ⟨⟨t, ht, hte⟩, fun e' he' hk => hts (h.unique t ht s hs e e' hte he' hk)⟩
  · rintro ⟨⟨t, ht, hte⟩, hother⟩
    refine ⟨t, ht, ?_⟩
    rw [Function.update_of_ne (fun hts => ?_), hte]
    exact hother e (hts ▸ hte) rfl

/-- With fewer keys than slots, some slot is empty. -/
theorem exists_empty (hcard : {k | ∃ e, Holds n slots e ∧ key e = k}.ncard < n) :
    ∃ z < n, slots z = none := by
  by_contra hfull
  have hsome : ∀ z < n, ∃ e, slots z = some e := by
    intro z hz
    by_contra hnone
    exact hfull ⟨z, hz, Option.eq_none_iff_forall_not_mem.mpr fun e he => hnone ⟨e, he⟩⟩
  obtain ⟨e₀, -⟩ := hsome 0 (Nat.zero_lt_of_lt hcard)
  have hnonempty : Nonempty E := ⟨e₀⟩
  choose! entry hentry using hsome
  have hinj : Set.InjOn (fun z => key (entry z)) (Finset.range n) := by
    intro z hz z' hz' hk
    have hzn := Finset.mem_range.mp hz
    have hzn' := Finset.mem_range.mp hz'
    exact h.unique z hzn z' hzn' _ _ (hentry z hzn) (hentry z' hzn') hk
  have hkeys : {k | ∃ e, Holds n slots e ∧ key e = k} =
      (fun z => key (entry z)) '' (Finset.range n) := by
    ext k
    constructor
    · rintro ⟨e, ⟨z, hz, hze⟩, rfl⟩
      have hez : entry z = e := Option.some.inj ((hentry z hz).symm.trans hze)
      exact ⟨z, Finset.mem_coe.mpr (Finset.mem_range.mpr hz), congrArg key hez⟩
    · rintro ⟨z, hz, rfl⟩
      have hzn := Finset.mem_range.mp (Finset.mem_coe.mp hz)
      exact ⟨entry z, ⟨z, hzn, hentry z hzn⟩, rfl⟩
  rw [hkeys, hinj.ncard_image, Set.ncard_coe_finset, Finset.card_range] at hcard
  exact Nat.lt_irrefl n hcard

end Probed

/-! ## Deletion -/

/-- Walk on from `j`, moving entries back into the hole `i`, until an empty slot. -/
@[grind =]
def shift (n : ℕ) (home : E → ℕ) : ℕ → ℕ → ℕ → (ℕ → Option E) → Option (ℕ → Option E)
  | 0, _, _, _ => none
  | fuel + 1, i, j, slots =>
      let j := next n j
      match slots j with
      | none => some slots
      | some e =>
          if dist n i j ≤ dist n (home e) j then
            shift n home fuel j j
              (Function.update (Function.update slots i (some e)) j none)
          else shift n home fuel i j slots

/-- A table with a hole at `i`, looked through up to `j`: only entries behind `j` can miss the
hole on their way. -/
structure Holed (n : ℕ) (key : E → K) (home : K → ℕ) (i j : ℕ) (slots : ℕ → Option E) : Prop where
  home_lt : ∀ k, home k < n
  unique : ∀ s < n, ∀ t < n, ∀ e e', slots s = some e → slots t = some e' →
    key e = key e' → s = t
  hole : slots i = none
  filled : ∀ p < n, 0 < dist n i p → dist n i p ≤ dist n i j → slots p ≠ none
  path : ∀ s < n, ∀ e, slots s = some e → ∀ p < n,
    dist n (home (key e)) p < dist n (home (key e)) s →
    slots p ≠ none ∨ p = i ∧ dist n i j < dist n i s

namespace Holed

variable {i j : ℕ}

/-- Emptying a slot leaves a hole there. -/
theorem of_probed (h : Probed n key home slots) (hi : i < n) :
    Holed n key home i i (Function.update slots i none) := by
  have hread : ∀ t, ∀ e, Function.update slots i none t = some e → t ≠ i ∧ slots t = some e := by
    intro t e hte
    rw [Function.update_apply] at hte
    split at hte
    · cases hte
    · next hti => exact ⟨hti, hte⟩
  refine ⟨h.home_lt, ?_, Function.update_self .., fun p _ h₁ h₂ => ?_, ?_⟩
  · intro s hs t ht e e' he he' hk
    exact h.unique s hs t ht e e' (hread s e he).2 (hread t e' he').2 hk
  · rw [dist_self] at h₂
    omega
  · intro s hs e he p hp hlt
    obtain ⟨hsi, hse⟩ := hread s e he
    by_cases hpi : p = i
    · right
      rw [dist_self]
      exact ⟨hpi, Nat.pos_of_ne_zero fun hz => hsi ((dist_eq_zero hi).mp hz).symm⟩
    · left
      rw [Function.update_of_ne hpi]
      exact h.path s hs e hse p hp hlt

variable (h : Holed n key home i j slots) (hi : i < n) (hj : j < n)
include h hi hj

/-- Behind the last slot of the cluster no entry misses the hole. -/
theorem probed (hnone : slots (next n j) = none) : Probed n key home slots := by
  refine ⟨h.home_lt, h.unique, fun s hs e he p hp hlt => ?_⟩
  refine (h.path s hs e he p hp hlt).resolve_right ?_
  rintro ⟨rfl, hbehind⟩
  have hne := next_ne hj hs hbehind
  have hstep := dist_next_right hi hne
  have hlast : next n j ≠ s := by
    rintro rfl
    rw [hnone] at he
    cases he
  have hbetween : dist n p (next n j) < dist n p s := by
    refine Nat.lt_of_le_of_ne (by omega) fun heq => hlast ?_
    exact dist_inj hi (next_lt hj) hs heq
  have hway := dist_lt_of_between (h.home_lt (key e)) hp hs hlt hbetween
  rcases h.path s hs e he _ (next_lt hj) hway with hfull | ⟨hsame, -⟩
  · exact hfull hnone
  · exact hne hsame

variable {e : E} (he : slots (next n j) = some e)
include he

omit hi hj in
theorem next_ne_hole : next n j ≠ i := by
  intro heq
  rw [heq, h.hole] at he
  cases he

/-- An entry whose way does not lead over the hole stays. -/
theorem keep (hstay : ¬dist n i (next n j) ≤ dist n (home (key e)) (next n j)) :
    Holed n key home i (next n j) slots := by
  have hj' := next_lt hj
  have hstep := dist_next_right hi (h.next_ne_hole he)
  refine ⟨h.home_lt, h.unique, h.hole, fun p hp h₁ h₂ => ?_, fun s hs e' hse p hp hlt => ?_⟩
  · rcases Nat.lt_or_ge (dist n i j) (dist n i p) with hlt | hle
    · have hpj : p = next n j := dist_inj hi hp hj' (by omega)
      rw [hpj, he]
      exact Option.some_ne_none _
    · exact h.filled p hp h₁ hle
  · refine (h.path s hs e' hse p hp hlt).imp_right ?_
    rintro ⟨rfl, hbehind⟩
    refine ⟨rfl, Nat.lt_of_le_of_ne (by omega) fun heq => hstay ?_⟩
    obtain rfl := dist_inj hi hj' hs heq
    cases he.symm.trans hse
    have hway := dist_add (h.home_lt (key e)) hp hj' hlt.le
    omega

omit hi hj in
theorem moved_eq (t : ℕ) (e' : E) :
    Function.update (Function.update slots i (some e)) (next n j) none t = some e' ↔
      t ≠ next n j ∧ (t = i ∧ e' = e ∨ t ≠ i ∧ slots t = some e') := by
  have hne := h.next_ne_hole he
  by_cases htj : t = next n j
  · simp [htj]
  · rw [Function.update_of_ne htj, Function.update_apply]
    by_cases hti : t = i
    · simp [hti, hne.symm, eq_comm]
    · simp [htj, hti]

/-- An entry whose way leads over the hole moves into it and leaves a hole behind. -/
theorem move (hgo : dist n i (next n j) ≤ dist n (home (key e)) (next n j)) :
    Holed n key home (next n j) (next n j)
      (Function.update (Function.update slots i (some e)) (next n j) none) := by
  have hj' := next_lt hj
  have hhome := h.home_lt (key e)
  have hne := h.next_ne_hole he
  have hread := h.moved_eq he
  have hway := dist_add_of_le hhome hi hgo
  have hkept : ∀ p, p ≠ next n j → (p = i ∨ slots p ≠ none) →
      Function.update (Function.update slots i (some e)) (next n j) none p ≠ none := by
    intro p hpj hp
    rw [Function.update_of_ne hpj, Function.update_apply]
    split
    · exact Option.some_ne_none _
    · next hpi => exact hp.resolve_left hpi
  refine ⟨h.home_lt, ?_, Function.update_self .., fun p _ h₁ h₂ => ?_, ?_⟩
  · intro s hs t ht e₁ e₂ h₁ h₂ hk
    obtain ⟨hsj, ⟨hs', he₁⟩ | ⟨-, hs₁⟩⟩ := (hread s e₁).mp h₁
    · obtain ⟨htj, ⟨ht', -⟩ | ⟨-, ht₂⟩⟩ := (hread t e₂).mp h₂
      · exact hs'.trans ht'.symm
      · exact absurd (h.unique _ hj' t ht _ _ he ht₂ (he₁ ▸ hk)).symm htj
    · obtain ⟨htj, ⟨-, he₂⟩ | ⟨-, ht₂⟩⟩ := (hread t e₂).mp h₂
      · exact absurd (h.unique s hs _ hj' _ _ hs₁ he (he₂ ▸ hk)) hsj
      · exact h.unique s hs t ht _ _ hs₁ ht₂ hk
  · rw [dist_self] at h₂
    omega
  · intro s hs e₁ h₁ p hp hlt
    obtain ⟨hsj, ⟨rfl, rfl⟩ | ⟨hsi, h₁⟩⟩ := (hread s e₁).mp h₁
    · left
      have hpj : p ≠ next n j := by
        rintro rfl
        omega
      apply hkept p hpj
      right
      refine (h.path _ hj' e₁ he p hp (by omega)).resolve_right ?_
      rintro ⟨rfl, -⟩
      exact Nat.lt_irrefl _ hlt
    · by_cases hpj : p = next n j
      · right
        rw [dist_self]
        exact ⟨hpj, Nat.pos_of_ne_zero fun hz => hsj ((dist_eq_zero hj').mp hz).symm⟩
      · left
        apply hkept p hpj
        exact (h.path s hs e₁ h₁ p hp hlt).symm.imp_left And.left

theorem holds_move (e' : E) :
    Holds n (Function.update (Function.update slots i (some e)) (next n j) none) e' ↔
      Holds n slots e' := by
  have hread := h.moved_eq he
  constructor
  · rintro ⟨t, ht, hte⟩
    obtain ⟨-, ⟨rfl, rfl⟩ | ⟨-, hte⟩⟩ := (hread t e').mp hte
    · exact ⟨_, next_lt hj, he⟩
    · exact ⟨t, ht, hte⟩
  · rintro ⟨t, ht, hte⟩
    have hti : t ≠ i := by
      rintro rfl
      rw [h.hole] at hte
      cases hte
    by_cases htj : t = next n j
    · rw [htj, he] at hte
      exact ⟨i, hi, (hread i e').mpr ⟨(h.next_ne_hole he).symm,
        Or.inl ⟨rfl, (Option.some.inj hte).symm⟩⟩⟩
    · exact ⟨t, ht, (hread t e').mpr ⟨htj, Or.inr ⟨hti, hte⟩⟩⟩

end Holed

/-- The deletion ends at the next empty slot, with the same entries and no hole. -/
theorem shift_spec {fuel i j z : ℕ} (h : Holed n key home i j slots) (hi : i < n) (hj : j < n)
    (hz : z < n) (hempty : slots z = none) (hzi : z ≠ i) (hjz : j ≠ z)
    (hfuel : dist n j z ≤ fuel) :
    ∃ slots', shift n (fun e => home (key e)) fuel i j slots = some slots' ∧
      Probed n key home slots' ∧ ∀ e, Holds n slots' e ↔ Holds n slots e := by
  induction fuel generalizing i j slots with
  | zero => exact absurd ((dist_eq_zero hj).mp (Nat.le_zero.mp hfuel)) hjz
  | succ fuel ih =>
      have hj' := next_lt hj
      have hstep := dist_next_left hj hz hjz
      rw [shift]
      cases he : slots (next n j) with
      | none => exact ⟨slots, rfl, h.probed hi hj he, fun _ => Iff.rfl⟩
      | some e =>
          have hjz' : next n j ≠ z := by
            rintro rfl
            rw [hempty] at he
            cases he
          simp only
          split
          · next hgo =>
              have hempty' : Function.update (Function.update slots i (some e)) (next n j) none z =
                  none := by
                rw [Function.update_of_ne hjz'.symm, Function.update_of_ne hzi, hempty]
              obtain ⟨slots', hrun, hprobed, hholds⟩ := ih (h.move hi hj he hgo) hj' hj' hempty'
                hjz'.symm hjz' (by omega)
              exact ⟨slots', hrun, hprobed, fun e' => (hholds e').trans (h.holds_move hi hj he e')⟩
          · next hstay =>
              exact ih (h.keep hi hj he hstay) hi hj' hempty hzi hjz' (by omega)

end Table

end HftProj.Lib.Probing
