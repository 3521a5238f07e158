import Mathlib.Data.List.Nodup
import Mathlib.Data.List.Perm.Basic
import Mathlib.Logic.Function.Basic
import Mathlib.Tactic.Common

/-!
# Threads of keyed writes

A run of writes, each to the cell of its key, falls apart into one thread for each key. In a
thread every write finds what the one before it left. Buckets collect the threads in the
order in which their keys first come up.
-/

namespace HftProj.Lib.Threads

variable {X K S : Type*} [DecidableEq K] (key : X → K) (bef aft : X → S)

/-! ## Runs and threads -/

/-- The cells behind the writes. -/
def run (cells : K → S) (xs : List X) : K → S :=
  xs.foldl (fun cells x => Function.update cells (key x) (aft x)) cells

/-- Every write of the run finds what it says. -/
@[grind =]
def Runs (cells : K → S) : List X → Prop
  | [] => True
  | x :: xs => bef x = cells (key x) ∧ Runs (Function.update cells (key x) (aft x)) xs

/-- Every write of the thread finds what the one before it left. -/
@[grind =]
def Linked (s : S) : List X → Prop
  | [] => True
  | x :: xs => bef x = s ∧ Linked (aft x) xs

/-- The writes to one cell. -/
def thread (k : K) (xs : List X) : List X := xs.filter fun x => key x = k

variable {key bef aft} {cells : K → S} {xs ys : List X} {k : K}

theorem run_append : run key aft cells (xs ++ ys) = run key aft (run key aft cells xs) ys := by
  rw [run, run, run, List.foldl_append]

theorem Runs.append (h : Runs key bef aft cells xs)
    (h' : Runs key bef aft (run key aft cells xs) ys) : Runs key bef aft cells (xs ++ ys) := by
  induction xs generalizing cells with
  | nil => exact h'
  | cons x xs ih => exact ⟨h.1, ih h.2 h'⟩

/-- A run keeps every thread linked. -/
theorem Runs.linked (h : Runs key bef aft cells xs) (k : K) :
    Linked bef aft (cells k) (thread key k xs) := by
  induction xs generalizing cells with
  | nil => trivial
  | cons x xs ih =>
      have hrest := ih h.2
      rw [thread, List.filter_cons]
      by_cases hk : key x = k
      · rw [if_pos (by simpa using hk)]
        rw [← hk, Function.update_self] at hrest
        subst hk
        exact ⟨h.1, hrest⟩
      · rw [if_neg (by simpa using hk)]
        rwa [Function.update_of_ne (Ne.symm hk)] at hrest

/-- A cell ends with what the last write of its thread left. -/
theorem run_eq (k : K) :
    run key aft cells xs k = (thread key k xs).foldl (fun _ x => aft x) (cells k) := by
  induction xs generalizing cells with
  | nil => rfl
  | cons x xs ih =>
      rw [thread, List.filter_cons]
      show run key aft (Function.update cells (key x) (aft x)) xs k = _
      rw [ih]
      by_cases hk : key x = k
      · rw [if_pos (by simpa using hk), hk, Function.update_self]
        rfl
      · rw [if_neg (by simpa using hk), Function.update_of_ne (Ne.symm hk)]
        rfl

/-- A cell that no write goes to keeps what it has. -/
theorem run_of_notMem (h : k ∉ xs.map key) : run key aft cells xs k = cells k := by
  induction xs generalizing cells with
  | nil => rfl
  | cons x xs ih =>
      rw [List.map_cons, List.mem_cons, not_or] at h
      exact (ih h.2).trans (Function.update_of_ne h.1 ..)

/-- The one write to a cell stays. -/
theorem run_of_mem (hnodup : (xs.map key).Nodup) {x : X} (h : x ∈ xs) :
    run key aft cells xs (key x) = aft x := by
  induction xs generalizing cells with
  | nil => cases h
  | cons y xs ih =>
      rw [List.map_cons, List.nodup_cons] at hnodup
      rcases List.mem_cons.mp h with rfl | hmem
      · exact (run_of_notMem hnodup.1).trans (Function.update_self ..)
      · exact ih hnodup.2 hmem

theorem Linked.getElem_succ {s : S} {i : ℕ} (h : Linked bef aft s xs) (hi : i + 1 < xs.length) :
    bef xs[i + 1] = aft xs[i] := by
  induction xs generalizing s i with
  | nil => exact absurd hi (Nat.not_lt_zero _)
  | cons x xs ih =>
      cases i with
      | zero =>
          cases xs with
          | nil => exact absurd hi (Nat.lt_irrefl _)
          | cons y ys => exact h.2.1
      | succ i => exact ih h.2 (Nat.lt_of_succ_lt_succ hi)

/-- The threads of distinct keys are together the writes to these keys. -/
theorem threads_perm {ks : List K} (hnodup : ks.Nodup) (xs : List X) :
    (ks.flatMap fun k => thread key k xs).Perm (xs.filter fun x => key x ∈ ks) := by
  induction ks with
  | nil => simp
  | cons k ks ih =>
      rw [List.nodup_cons] at hnodup
      have hsplit := List.filter_append_perm (fun x => decide (key x = k))
        (xs.filter fun x => decide (key x ∈ k :: ks))
      have hfirst : (xs.filter fun x => decide (key x ∈ k :: ks)).filter
          (fun x => decide (key x = k)) = thread key k xs := by
        rw [List.filter_filter, thread]
        apply List.filter_congr
        intro x _
        simp +contextual [List.mem_cons]
      have hothers : (xs.filter fun x => decide (key x ∈ k :: ks)).filter
          (fun x => !decide (key x = k)) = xs.filter fun x => decide (key x ∈ ks) := by
        rw [List.filter_filter]
        apply List.filter_congr
        intro x _
        by_cases hk : key x = k
        · simp [hk, hnodup.1]
        · simp [hk]
      rw [hfirst, hothers] at hsplit
      rw [List.flatMap_cons]
      exact ((ih hnodup.2).append_left _).trans hsplit

/-! ## Buckets -/

variable (key)

/-- Add to the bucket of the key; a new key opens a bucket behind the others. -/
@[grind =]
def push : List (K × List X) → X → List (K × List X)
  | [], x => [(key x, [x])]
  | (k, ss) :: rest, x =>
      if k = key x then (k, ss ++ [x]) :: rest else (k, ss) :: push rest x

def bucketed (xs : List X) : List (K × List X) := xs.foldl (push key) []

variable {key}

theorem push_keys (buckets : List (K × List X)) (x : X) :
    (push key buckets x).map Prod.fst =
      if key x ∈ buckets.map Prod.fst then buckets.map Prod.fst
      else buckets.map Prod.fst ++ [key x] := by
  induction buckets with
  | nil => rfl
  | cons b buckets ih =>
      obtain ⟨k, ss⟩ := b
      rw [push]
      by_cases hk : k = key x
      · rw [if_pos hk, if_pos (by simp [hk])]
        rfl
      · rw [if_neg hk, List.map_cons, ih, List.map_cons]
        have hmem : key x ∈ k :: buckets.map Prod.fst ↔ key x ∈ buckets.map Prod.fst := by
          rw [List.mem_cons, or_iff_right (Ne.symm hk)]
        split
        · next h => rw [if_pos (hmem.mpr h)]
        · next h =>
            rw [if_neg (mt hmem.mp h)]
            rfl

/-- The buckets of a list: distinct keys, each with its thread, and no thread missing. -/
structure Sorted (key : X → K) (buckets : List (K × List X)) (xs : List X) : Prop where
  nodup : (buckets.map Prod.fst).Nodup
  thread : ∀ b ∈ buckets, b.2 = Threads.thread key b.1 xs ∧ b.2 ≠ []
  all : ∀ x ∈ xs, key x ∈ buckets.map Prod.fst
  perm : (buckets.flatMap Prod.snd).Perm xs

theorem mem_push {buckets : List (K × List X)} {x : X} (hnodup : (buckets.map Prod.fst).Nodup)
    {b : K × List X} (h : b ∈ push key buckets x) :
    (b ∈ buckets ∧ b.1 ≠ key x) ∨
    (∃ ss, (key x, ss) ∈ buckets ∧ b = (key x, ss ++ [x])) ∨
    (key x ∉ buckets.map Prod.fst ∧ b = (key x, [x])) := by
  induction buckets with
  | nil => exact Or.inr (Or.inr ⟨List.not_mem_nil, List.mem_singleton.mp h⟩)
  | cons b' buckets ih =>
      obtain ⟨k, ss⟩ := b'
      rw [List.map_cons, List.nodup_cons] at hnodup
      rw [push] at h
      split at h
      · next hk =>
          subst hk
          rcases List.mem_cons.mp h with rfl | hmem
          · exact Or.inr (Or.inl ⟨ss, List.mem_cons_self, rfl⟩)
          · refine Or.inl ⟨List.mem_cons_of_mem _ hmem, fun heq => hnodup.1 ?_⟩
            have hkey := List.mem_map_of_mem (f := Prod.fst) hmem
            rwa [heq] at hkey
      · next hk =>
          rcases List.mem_cons.mp h with rfl | hmem
          · exact Or.inl ⟨List.mem_cons_self, hk⟩
          · rcases ih hnodup.2 hmem with ⟨hb, hne⟩ | ⟨ss', hss, hb⟩ | ⟨hnew, hb⟩
            · exact Or.inl ⟨List.mem_cons_of_mem _ hb, hne⟩
            · exact Or.inr (Or.inl ⟨ss', List.mem_cons_of_mem _ hss, hb⟩)
            · refine Or.inr (Or.inr ⟨?_, hb⟩)
              rw [List.map_cons, List.mem_cons]
              exact not_or.mpr ⟨Ne.symm hk, hnew⟩

theorem push_perm (buckets : List (K × List X)) (x : X) :
    ((push key buckets x).flatMap Prod.snd).Perm (buckets.flatMap Prod.snd ++ [x]) := by
  induction buckets with
  | nil => exact List.Perm.refl _
  | cons b buckets ih =>
      obtain ⟨k, ss⟩ := b
      rw [push]
      split
      · rw [List.flatMap_cons, List.flatMap_cons, List.append_assoc, List.append_assoc]
        exact List.Perm.append_left ss List.perm_append_comm
      · rw [List.flatMap_cons, List.flatMap_cons, List.append_assoc]
        exact List.Perm.append_left ss ih

theorem Sorted.push {buckets : List (K × List X)} (h : Sorted key buckets xs) (x : X) :
    Sorted key (push key buckets x) (xs ++ [x]) := by
  constructor
  · rw [push_keys]
    split
    · exact h.nodup
    · next hnew =>
        refine List.nodup_append.mpr ⟨h.nodup, List.nodup_singleton _, fun k hk k' hk' heq => ?_⟩
        rw [List.mem_singleton] at hk'
        exact hnew (hk' ▸ heq ▸ hk)
  · intro b hb
    rw [Threads.thread, List.filter_append]
    rcases mem_push h.nodup hb with ⟨hmem, hne⟩ | ⟨ss, hss, rfl⟩ | ⟨hnew, rfl⟩
    · obtain ⟨hthread, hsome⟩ := h.thread b hmem
      refine ⟨?_, hsome⟩
      rw [List.filter_cons, if_neg (by simpa using Ne.symm hne), List.filter_nil, List.append_nil]
      exact hthread
    · obtain ⟨hthread, -⟩ := h.thread _ hss
      refine ⟨?_, by simp⟩
      rw [List.filter_cons, if_pos (by simp), List.filter_nil]
      exact congrArg (· ++ [x]) hthread
    · refine ⟨?_, by simp⟩
      have hempty : xs.filter (fun y => key y = key x) = [] := by
        rw [List.filter_eq_nil_iff]
        intro y hy
        have hy' := h.all y hy
        simp only [decide_eq_true_eq]
        exact fun heq => hnew (heq ▸ hy')
      rw [hempty, List.filter_cons, if_pos (by simp), List.filter_nil, List.nil_append]
  · intro y hy
    rw [push_keys]
    rcases List.mem_append.mp hy with hy | hy
    · split
      · exact h.all y hy
      · exact List.mem_append_left _ (h.all y hy)
    · rw [List.mem_singleton.mp hy]
      split
      · next hmem => exact hmem
      · exact List.mem_append_right _ List.mem_cons_self
  · exact (push_perm buckets x).trans (List.Perm.append_right [x] h.perm)

theorem sorted_bucketed (xs : List X) : Sorted key (bucketed key xs) xs := by
  have hfold : ∀ (ys zs : List X) (buckets : List (K × List X)), Sorted key buckets zs →
      Sorted key (ys.foldl (push key) buckets) (zs ++ ys) := by
    intro ys
    induction ys with
    | nil =>
        intro zs buckets h
        rwa [List.append_nil]
    | cons y ys ih =>
        intro zs buckets h
        have hnext := ih (zs ++ [y]) _ (h.push y)
        rwa [List.append_assoc, List.singleton_append] at hnext
  apply hfold xs [] []
  exact ⟨List.nodup_nil, fun b hb => absurd hb List.not_mem_nil,
    fun x hx => absurd hx List.not_mem_nil, List.Perm.refl _⟩

end HftProj.Lib.Threads
