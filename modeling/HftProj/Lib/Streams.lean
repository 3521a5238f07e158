import HftProj.Lib.ReorderBuffer

/-!
# Streams of numbered items

What a lossless receiver makes of numbered items seen in any order and any number of
times: the items from an anchor up to the first number never seen. The stream is
determined by the anchor and by which items were seen, so two receivers agree.
-/

namespace HftProj.Lib

variable {α : Type*} {N : ℕ}

/-- The stream of what was seen: the items from the anchor up to the first number never seen. -/
structure IsStream (anchor : ℕ) (seen out : List (ℕ × α)) (next : ℕ) : Prop where
  le : anchor ≤ next
  numbers : out.map Prod.fst = List.range' anchor (next - anchor)
  sourced : ∀ m ∈ out, m ∈ seen
  stop : ∀ x, (next, x) ∉ seen

/-- All copies of one number carry the same item. -/
def Consistent (seen : List (ℕ × α)) : Prop :=
  ∀ m ∈ seen, ∀ m' ∈ seen, m.1 = m'.1 → m.2 = m'.2

instance [DecidableEq α] : DecidablePred (@Consistent α) := fun seen =>
  inferInstanceAs (Decidable (∀ m ∈ seen, ∀ m' ∈ seen, m.1 = m'.1 → m.2 = m'.2))

/-- A buffer that lost nothing has released the stream of what was seen. -/
theorem ReorderBuffer.Exact.isStream {b : ReorderBuffer α N} {anchor : ℕ} {seen out : List (ℕ × α)}
    (h : b.Exact anchor out) (hsrc : ∀ m ∈ out, m ∈ seen) (hc : b.Complete seen) :
    IsStream anchor seen out b.next where
  le := h.1
  numbers := h.2
  sourced := hsrc
  stop x hx := hc b.next x hx (Nat.le_refl _) b.held_next

theorem IsStream.next_le {anchor next next' : ℕ} {seen seen' out out' : List (ℕ × α)}
    (h : IsStream anchor seen out next) (h' : IsStream anchor seen' out' next')
    (hsame : ∀ m ∈ seen', m ∈ seen) : next' ≤ next := by
  by_contra hlt
  have hle := h.le
  have hmem : next ∈ out'.map Prod.fst := by
    rw [h'.numbers, List.mem_range'_1]
    omega
  obtain ⟨⟨q, x⟩, hm, rfl⟩ := List.mem_map.mp hmem
  exact h.stop x (hsame _ (h'.sourced _ hm))

/-- Numbered items with the same numbers, drawn from a consistent list, are the same. -/
theorem Consistent.eq_of_numbers {seen out out' : List (ℕ × α)} (hc : Consistent seen)
    (h : ∀ m ∈ out, m ∈ seen) (h' : ∀ m ∈ out', m ∈ seen)
    (hn : out.map Prod.fst = out'.map Prod.fst) : out = out' := by
  induction out generalizing out' with
  | nil => simpa using hn.symm
  | cons m out ih =>
      cases out' with
      | nil => simp at hn
      | cons m' out' =>
          rw [List.map_cons, List.map_cons, List.cons.injEq] at hn
          obtain ⟨q, x⟩ := m
          obtain ⟨q', y⟩ := m'
          obtain rfl : q = q' := hn.1
          obtain rfl : x = y := hc _ (h _ List.mem_cons_self) _ (h' _ List.mem_cons_self) rfl
          rw [ih (fun m hm => h m (List.mem_cons_of_mem _ hm))
            (fun m hm => h' m (List.mem_cons_of_mem _ hm)) hn.2]

/-- The stream does not depend on the order, nor on how often, the items were seen. -/
theorem IsStream.unique {anchor next next' : ℕ} {seen seen' out out' : List (ℕ × α)}
    (hc : Consistent seen) (h : IsStream anchor seen out next)
    (h' : IsStream anchor seen' out' next') (hsame : ∀ m, m ∈ seen ↔ m ∈ seen') :
    out = out' ∧ next = next' := by
  obtain rfl : next = next' :=
    Nat.le_antisymm (h'.next_le h fun m => (hsame m).mp) (h.next_le h' fun m => (hsame m).mpr)
  refine ⟨hc.eq_of_numbers h.sourced (fun m hm => (hsame m).mpr (h'.sourced m hm)) ?_, rfl⟩
  rw [h.numbers, h'.numbers]

/-- The streams of several lists, most recent list first, one behind the other; an empty list
has no anchor and no stream. The last component is where the most recent stream stops. -/
inductive Streams : List (List (ℕ × α)) → List (ℕ × α) → Option ℕ → Prop
  | nil : Streams [] [] none
  | idle {older out stop} (h : Streams older out stop) : Streams ([] :: older) out stop
  | data {older out stop m seen out' next} (h : Streams older out stop)
      (hs : IsStream m.1 (m :: seen) out' next) :
      Streams ((m :: seen) :: older) (out ++ out') (some next)

/-- Lists with the same first number and the same items. -/
structure SameSeen (seen seen' : List (ℕ × α)) : Prop where
  anchor : seen.head?.map Prod.fst = seen'.head?.map Prod.fst
  mem : ∀ m, m ∈ seen ↔ m ∈ seen'

theorem Streams.unique {vs vs' : List (List (ℕ × α))} {out out' : List (ℕ × α)}
    {stop stop' : Option ℕ} (hc : ∀ seen ∈ vs, Consistent seen) (h : Streams vs out stop)
    (h' : Streams vs' out' stop') (hsame : List.Forall₂ SameSeen vs vs') :
    out = out' ∧ stop = stop' := by
  induction h generalizing vs' out' stop' with
  | nil =>
      cases hsame
      cases h'
      exact ⟨rfl, rfl⟩
  | idle h ih =>
      obtain ⟨hhead, hrest⟩ := hsame
      rename_i seen' vs' hhead hrest
      cases h' with
      | idle h' => exact ih (fun s hs => hc s (List.mem_cons_of_mem _ hs)) h' hrest
      | data h' _ => simpa using hhead.anchor
  | data h hs ih =>
      obtain ⟨hhead, hrest⟩ := hsame
      rename_i seen' vs' hhead hrest
      cases h' with
      | idle h' => simpa using hhead.anchor
      | data h' hs' =>
          obtain ⟨rfl, -⟩ := ih (fun s hs => hc s (List.mem_cons_of_mem _ hs)) h' hrest
          rw [← Option.some.inj hhead.anchor] at hs'
          obtain ⟨rfl, rfl⟩ := hs.unique (hc _ List.mem_cons_self) hs' hhead.mem
          exact ⟨rfl, rfl⟩

/-- Lists without items can be left out. -/
theorem Streams.filter {vs : List (List (ℕ × α))} {out : List (ℕ × α)} {stop : Option ℕ}
    (h : Streams vs out stop) : Streams (vs.filter fun seen => !seen.isEmpty) out stop := by
  induction h with
  | nil => exact .nil
  | idle _ ih => simpa using ih
  | data _ hs ih => simpa using Streams.data ih hs

end HftProj.Lib
