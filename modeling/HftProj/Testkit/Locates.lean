import HftProj.Lib.Fallible
import HftProj.Testkit.BakeFabric

/-!
# The locate histogram

The index of a locate is its place in the order of first appearance, and the sentinel is the
index of the 65536th. While no message finds that index taken, the histogram counts every
locate's messages.
-/

namespace HftProj.Testkit.SigFabric

open HftProj.Lib

/-! ## Locates in order of appearance -/

/-- The messages of a stream that have a type header. -/
def headed (us : List (ℕ × List UInt8)) : List (List UInt8) :=
  (us.map Prod.snd).filter fun m => 3 ≤ m.length

/-- The stock locates in the order of their first message. -/
def locates (ms : List (List UInt8)) : List ℕ := (Threads.bucketed locOf ms).map Prod.fst

/-- How many messages a locate has. -/
def countOf (ms : List (List UInt8)) (loc : ℕ) : ℕ := (Threads.thread locOf loc ms).length

section Locates

variable {ms pre post : List (List UInt8)} {m : List UInt8} {loc : ℕ}

theorem locOf_lt (m : List UInt8) : locOf m < 2 ^ 16 := beAt_lt m 1 2

theorem locates_snoc (ms : List (List UInt8)) (m : List UInt8) :
    locates (ms ++ [m]) =
      if locOf m ∈ locates ms then locates ms else locates ms ++ [locOf m] := by
  rw [locates, Threads.bucketed, List.foldl_append]
  exact Threads.push_keys _ m

theorem locates_nodup (ms : List (List UInt8)) : (locates ms).Nodup :=
  (Threads.sorted_bucketed ms).nodup

theorem mem_locates : loc ∈ locates ms ↔ loc ∈ ms.map locOf := by
  induction ms using List.reverseRecOn with
  | nil => exact Iff.rfl
  | append_singleton ms m ih =>
      rw [locates_snoc, List.map_append, List.mem_append, List.map_singleton, List.mem_singleton,
        ← ih]
      split
      · rename_i hmem
        constructor
        · exact Or.inl
        · rintro (hloc | rfl)
          · exact hloc
          · exact hmem
      · rw [List.mem_append, List.mem_singleton]

theorem locates_prefix (pre post : List (List UInt8)) :
    ∃ new, locates (pre ++ post) = locates pre ++ new := by
  induction post using List.reverseRecOn with
  | nil => exact ⟨[], by rw [List.append_nil, List.append_nil]⟩
  | append_singleton post m ih =>
      obtain ⟨new, hnew⟩ := ih
      rw [← List.append_assoc, locates_snoc, hnew]
      split
      · exact ⟨new, rfl⟩
      · exact ⟨new ++ [locOf m], List.append_assoc ..⟩

theorem locates_lt (h : loc ∈ locates ms) : loc < 2 ^ 16 := by
  obtain ⟨m, -, rfl⟩ := List.mem_map.mp (mem_locates.mp h)
  exact locOf_lt m

theorem nodup_length_le {l : List ℕ} {n : ℕ} (hnodup : l.Nodup) (hlt : ∀ x ∈ l, x < n) :
    l.length ≤ n := by
  have hsub := hnodup.subperm fun x hx => List.mem_range.mpr (hlt x hx)
  have hle := hsub.length_le
  rwa [List.length_range] at hle

theorem locates_length_le (ms : List (List UInt8)) : (locates ms).length ≤ 2 ^ 16 :=
  nodup_length_le (locates_nodup ms) fun _ => locates_lt

/-- A new locate finds an index free. -/
theorem locates_length_lt (h : loc ∉ locates ms) (hloc : loc < 2 ^ 16) :
    (locates ms).length < 2 ^ 16 := by
  apply nodup_length_le (l := loc :: locates ms) (List.nodup_cons.mpr ⟨h, locates_nodup ms⟩)
  intro x hx
  rcases List.mem_cons.mp hx with rfl | hmem
  · exact hloc
  · exact locates_lt hmem

theorem countOf_snoc (ms : List (List UInt8)) (m : List UInt8) (loc : ℕ) :
    countOf (ms ++ [m]) loc = if loc = locOf m then countOf ms loc + 1 else countOf ms loc := by
  split
  · rename_i heq
    rw [countOf, heq, Scatter.thread_snoc_self, List.length_append]
    rfl
  · rename_i hne
    rw [countOf, Scatter.thread_snoc_of_ne (Ne.symm hne)]
    rfl

theorem countOf_pos (h : loc ∈ locates ms) : 0 < countOf ms loc := by
  obtain ⟨m, hm, rfl⟩ := List.mem_map.mp (mem_locates.mp h)
  exact List.length_pos_of_mem (List.mem_filter.mpr ⟨hm, decide_eq_true rfl⟩)

theorem countOf_absent (h : loc ∉ locates ms) : countOf ms loc = 0 := by
  rw [mem_locates] at h
  rw [countOf, Scatter.thread_eq_nil h]
  rfl

theorem countOf_append (pre post : List (List UInt8)) (loc : ℕ) :
    countOf (pre ++ post) loc = countOf pre loc + countOf post loc := by
  rw [countOf, Scatter.thread_append, List.length_append]
  rfl

/-- The locates' counts make up the stream. -/
theorem countOf_sum (ms : List (List UInt8)) : ((locates ms).map (countOf ms)).sum = ms.length := by
  have hsorted : Threads.Sorted locOf (Threads.bucketed locOf ms) ms := Threads.sorted_bucketed ms
  have hcounts : (locates ms).map (countOf ms) =
      ((Threads.bucketed locOf ms).map Prod.snd).map List.length := by
    rw [locates, List.map_map, List.map_map]
    apply List.map_congr_left
    intro b hb
    exact congrArg List.length (hsorted.thread b hb).1.symm
  rw [hcounts, ← List.length_flatten, ← List.flatMap_def]
  exact hsorted.perm.length_eq

end Locates

/-! ## The histogram -/

/-- Writing at the place of a key. -/
theorem map_set_idxOf {l : List ℕ} (hnodup : l.Nodup) {k : ℕ} (f : ℕ → ℕ) (v : ℕ) :
    (l.map f).set (l.idxOf k) v = l.map fun x => if x = k then v else f x := by
  apply List.ext_getElem
  · rw [List.length_set, List.length_map, List.length_map]
  · intro i hi hi'
    have hlt : i < l.length := by rwa [List.length_set, List.length_map] at hi
    have hplace : l.idxOf k = i ↔ l[i] = k := by
      constructor
      · rintro rfl
        exact List.getElem_idxOf hlt
      · rintro rfl
        exact hnodup.idxOf_getElem i hlt
    rw [List.getElem_set, List.getElem_map, List.getElem_map]
    exact if_congr hplace rfl rfl

theorem fetch_some {α : Type*} {xs : List α} {i : ℕ} {x : α} :
    fetch xs i = .ok x ↔ xs[i]? = some x := by
  rw [fetch]
  cases xs[i]? with
  | none => simp
  | some y => simp

/-- The table of the locates entered, with their counts so far. -/
structure Tabled (h : Histogram) (ls : List ℕ) (count : ℕ → ℕ) : Prop where
  ids : h.locateIds = ls
  counts : h.counts = ls.map fun loc => count loc % 2 ^ 32
  index : ∀ loc, h.locateIndex loc = if loc ∈ ls then ls.idxOf loc else 65535

/-- The histogram of some messages. -/
def Histogram.Of (h : Histogram) (ms : List (List UInt8)) : Prop :=
  Tabled h (locates ms) (countOf ms) ∧ h.nMsgs = ms.length

/-- No message finds the sentinel index taken. -/
def Indexed (ms : List (List UInt8)) : Prop :=
  ∀ loc, (locates ms)[65535]? = some loc → countOf ms loc = 1

namespace Histogram

variable {h : Histogram} {ms : List (List UInt8)} {m : List UInt8}

theorem new_of : new.Of [] := ⟨⟨rfl, rfl, fun _ => rfl⟩, rfl⟩

/-- Entering a message's locate. -/
theorem enter_of (ht : Tabled h (locates ms) (countOf ms))
    (hfree : locOf m ∈ locates ms → (locates ms).idxOf (locOf m) ≠ 65535) :
    Tabled (h.enter (locOf m)) (locates (ms ++ [m])) (countOf ms) := by
  rw [locates_snoc, enter, ht.index]
  by_cases hmem : locOf m ∈ locates ms
  · rw [if_pos hmem, if_pos hmem, if_neg (hfree hmem)]
    exact ht
  · rw [if_neg hmem, if_neg hmem, if_pos rfl]
    have hlen := locates_length_lt hmem (locOf_lt m)
    constructor
    · exact congrArg (· ++ [locOf m]) ht.ids
    · rw [List.map_append, List.map_singleton, countOf_absent hmem]
      exact congrArg (· ++ [0]) ht.counts
    · intro loc
      have hids : h.locateIds.length % 2 ^ 16 = (locates ms).length := by
        rw [ht.ids, Nat.mod_eq_of_lt hlen]
      show Function.update h.locateIndex (locOf m) (h.locateIds.length % 2 ^ 16) loc = _
      rw [Function.update_apply, hids, ht.index]
      by_cases heq : loc = locOf m
      · rw [if_pos heq, heq, if_pos (List.mem_append_right _ (List.mem_singleton_self _)),
          List.idxOf_append_of_notMem hmem, List.idxOf_cons_self, Nat.add_zero]
      · rw [if_neg heq]
        have hiff : loc ∈ locates ms ++ [locOf m] ↔ loc ∈ locates ms := by
          rw [List.mem_append, List.mem_singleton, or_iff_left heq]
        by_cases hloc : loc ∈ locates ms
        · rw [if_pos hloc, if_pos (hiff.mpr hloc), List.idxOf_append_of_mem hloc]
        · rw [if_neg hloc, if_neg (mt hiff.mp hloc)]

theorem step_of (hof : h.Of ms) {u : ℕ × List UInt8} (hlen : 3 ≤ u.2.length)
    (hfree : locOf u.2 ∈ locates ms → (locates ms).idxOf (locOf u.2) ≠ 65535) :
    ∃ h', h.step u = .ok h' ∧ h'.Of (ms ++ [u.2]) := by
  obtain ⟨ht, hmsgs⟩ := hof
  let ent := { h with nMsgs := h.nMsgs + 1 }.enter (locOf u.2)
  have hent : Tabled ent (locates (ms ++ [u.2])) (countOf ms) :=
    enter_of (h := { h with nMsgs := h.nMsgs + 1 }) ⟨ht.ids, ht.counts, ht.index⟩ hfree
  have hmem : locOf u.2 ∈ locates (ms ++ [u.2]) := by
    rw [mem_locates, List.map_append]
    exact List.mem_append_right _ (List.mem_singleton_self _)
  have hindex := hent.index (locOf u.2)
  rw [if_pos hmem] at hindex
  have hfetch : fetch ent.counts (ent.locateIndex (locOf u.2)) =
      .ok (countOf ms (locOf u.2) % 2 ^ 32) := by
    have hget := List.getElem_idxOf (List.idxOf_lt_length_of_mem hmem)
    rw [fetch_some, hindex, hent.counts, List.getElem?_map,
      List.getElem?_eq_getElem (List.idxOf_lt_length_of_mem hmem), hget]
    rfl
  refine ⟨{ ent with
    counts := ent.counts.set (ent.locateIndex (locOf u.2))
      ((countOf ms (locOf u.2) % 2 ^ 32 + 1) % 2 ^ 32) }, ?_, ⟨hent.ids, ?_, hent.index⟩, ?_⟩
  · rw [step, if_neg (Nat.not_lt.mpr hlen)]
    exact Fallible.bind_eq_ok.mpr ⟨_, hfetch, rfl⟩
  · show ent.counts.set _ _ = _
    rw [hindex, hent.counts, map_set_idxOf (locates_nodup _)]
    apply List.map_congr_left
    intro loc _
    rw [countOf_snoc, Nat.mod_add_mod]
    split
    · rename_i heq
      rw [heq]
    · rfl
  · rw [List.length_append, ← hmsgs]
    have hkeep : ∀ h : Histogram, (h.enter (locOf u.2)).nMsgs = h.nMsgs := by
      intro h
      rw [enter]
      split <;> rfl
    exact hkeep _

end Histogram

theorem Indexed.free {pre post : List (List UInt8)} {m : List UInt8}
    (h : Indexed (pre ++ m :: post)) (hmem : locOf m ∈ locates pre) :
    (locates pre).idxOf (locOf m) ≠ 65535 := by
  intro hidx
  obtain ⟨new, hnew⟩ := locates_prefix pre (m :: post)
  have hlt := List.idxOf_lt_length_of_mem hmem
  have hget : (locates pre)[65535]? = some (locOf m) := by
    rw [← hidx, List.getElem?_eq_getElem hlt, List.getElem_idxOf hlt]
  have hone : countOf (pre ++ m :: post) (locOf m) = 1 := by
    apply h
    rw [hnew, List.getElem?_append_left (by rw [← hidx]; exact hlt), hget]
  have hfirst := countOf_pos hmem
  rw [List.append_cons, countOf_append, countOf_snoc, if_pos rfl] at hone
  omega

/-- Pass 1 over headed units whose locates all have a free index. -/
theorem histogram_of {us : List (ℕ × List UInt8)} (hlen : ∀ u ∈ us, 3 ≤ u.2.length)
    (hindexed : Indexed (us.map Prod.snd)) :
    ∃ h, us.foldlM Histogram.step .new = .ok h ∧ h.Of (us.map Prod.snd) := by
  refine Fallible.foldlM_total (P := fun pre (h : Histogram) => h.Of (pre.map Prod.snd)) Histogram.new_of ?_
  intro pre u post h heq hof
  subst heq
  rw [List.map_append, List.map_singleton]
  apply Histogram.step_of hof (hlen u (by simp))
  rw [List.map_append, List.map_cons] at hindexed
  exact hindexed.free

end HftProj.Testkit.SigFabric
