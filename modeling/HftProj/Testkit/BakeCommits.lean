import HftProj.Testkit.BakeLayout

/-!
# The commits

Phase S over a column divided into the locates' tokens: the tables hold each locate's chunk
signatures, and the digest and the aggregate run over the locates in order.
-/

namespace HftProj.Testkit.SigFabric

open HftProj.Lib
open LobState (Sig Lob3 sigCombine)
open Scatter (cells offset)
open SpanField (Cpu)

/-! ## The tables of a list of locates -/

section Tables

variable (gss : List (List Sig)) (l : ℕ)

/-- The signature of a locate. -/
def sigOf : Sig := sigTotal (gss.getD l [])

/-- The state of a locate. -/
def stateOf : Lob3 := (gss.getD l []).foldl Lob3.apply .default

/-- The digest over the first locates. -/
def digestTo : BitVec 64 :=
  (List.range l).foldl (fun d i => d ^^^ sigDigestMix i (sigOf gss i) (stateOf gss i)) 0

/-- The aggregate over the first locates. -/
def aggregateTo : Sig := (List.range l).foldl (fun g i => sigCombine g (sigOf gss i)) .identity

theorem digestTo_succ :
    digestTo gss (l + 1) = digestTo gss l ^^^ sigDigestMix l (sigOf gss l) (stateOf gss l) := by
  rw [digestTo, List.range_succ, List.foldl_append]
  rfl

theorem aggregateTo_succ :
    aggregateTo gss (l + 1) = sigCombine (aggregateTo gss l) (sigOf gss l) := by
  rw [aggregateTo, List.range_succ, List.foldl_append]
  rfl

/-- Phase S behind the first locates. -/
structure CommitsTo (s : Commits) : Prop where
  sigOff : s.sigOff = (List.range l).map (offset (gss.map List.length))
  sigs : s.sigs = (gss.take l).flatten
  sig0 : s.sig0 = (List.range l).map fun i => (gss.getD i []).headD .identity
  states : s.states = (List.range l).map (stateOf gss)
  chunks : s.chunks = (gss.take l).flatten.length
  digest : s.digest = digestTo gss l
  gAll : s.gAll = aggregateTo gss l

end Tables

/-! ## One locate -/

section Locate

variable {cpu : Cpu}

theorem chunkSigs_count (cpu : Cpu) (ts : List Token) : (chunkSigs cpu ts).length ≤ ts.length := by
  rw [chunkSigs, List.length_map]
  apply (chunksOf_count (by decide) _).trans
  rw [List.length_map]

theorem chunkSigs_ne_nil {ts : List Token} (h : ts ≠ []) : chunkSigs cpu ts ≠ [] := by
  intro hnil
  have hmap : ts.map tokenSig ≠ [] := fun heq => h (List.map_eq_nil_iff.mp heq)
  exact chunksOf_ne_nil hmap (List.map_eq_nil_iff.mp hnil)

/-- The signatures are no more than the tokens. -/
theorem sigs_le (cpu : Cpu) (parts : List (List Token)) :
    ((parts.map (chunkSigs cpu)).flatten).length ≤ parts.flatten.length := by
  induction parts with
  | nil => exact Nat.le_refl _
  | cons p parts ih =>
      have hcount := chunkSigs_count cpu p
      rw [List.map_cons, List.flatten_cons, List.flatten_cons, List.length_append,
        List.length_append]
      omega

/-- The tokens between two offsets of a divided column. -/
theorem tokensOf_part {parts : List (List Token)} {l : ℕ} (hl : l < parts.length)
    (hne : parts[l] ≠ []) :
    Commits.tokensOf parts.flatten (offset (parts.map List.length) l)
      (offset (parts.map List.length) (l + 1)) = .ok parts[l] := by
  have hlen : l < (parts.map List.length).length := by rwa [List.length_map]
  have hnext := Scatter.offset_succ hlen
  rw [List.getElem_map] at hnext
  have hpos := List.length_pos_iff.mpr hne
  have htotal : offset (parts.map List.length) (l + 1) ≤ parts.flatten.length := by
    rw [List.length_flatten]
    exact Scatter.offset_le_sum _ _
  have hsize : offset (parts.map List.length) (l + 1) - offset (parts.map List.length) l =
      parts[l].length := by omega
  rw [Commits.tokensOf, if_neg (by omega), if_pos htotal, slice, hsize]
  exact congrArg Except.ok (Scatter.cells_flatten parts hl)

/-- One locate more. -/
theorem CommitsTo.step {parts : List (List Token)} (hfew : parts.flatten.length < 2 ^ 32)
    (hne : ∀ p ∈ parts, p ≠ []) {l : ℕ} (hl : l < parts.length) {s : Commits}
    (hs : CommitsTo (parts.map (chunkSigs cpu)) l s) :
    ∃ s', s.step cpu parts.flatten (tokOff (parts.map List.length)) l = .ok s' ∧
      CommitsTo (parts.map (chunkSigs cpu)) (l + 1) s' := by
  have hpart : parts[l] ≠ [] := hne _ (List.getElem_mem hl)
  have hoff : ∀ i ≤ parts.length, fetch (tokOff (parts.map List.length)) i =
      .ok (offset (parts.map List.length) i) := by
    intro i hi
    have hle := Scatter.offset_le_sum (parts.map List.length) i
    rw [← List.length_flatten] at hle
    rw [fetch_some, tokOff_get (by rwa [List.length_map]), Nat.mod_eq_of_lt (by omega)]
  have hget : (parts.map (chunkSigs cpu)).getD l [] = chunkSigs cpu parts[l] := by
    rw [List.getD_eq_getElem _ _ (by rwa [List.length_map]), List.getElem_map]
  have hbound : s.sigs.length < 2 ^ 32 := by
    have hsub := sigs_le cpu parts
    have htake : ((parts.map (chunkSigs cpu)).take l).flatten.length ≤
        (parts.map (chunkSigs cpu)).flatten.length := by
      rw [← List.take_append_drop l (parts.map (chunkSigs cpu)), List.flatten_append,
        List.length_append, List.take_append_drop]
      exact Nat.le_add_right _ _
    rw [hs.sigs]
    omega
  have hstart : s.sigs.length % 2 ^ 32 = s.sigs.length := Nat.mod_eq_of_lt hbound
  have hflat : s.sigs ++ chunkSigs cpu parts[l] =
      ((parts.map (chunkSigs cpu)).take (l + 1)).flatten := by
    have hlen : l < (parts.map (chunkSigs cpu)).length := by rwa [List.length_map]
    rw [List.take_succ_eq_append_getElem hlen, List.flatten_append, List.flatten_singleton,
      List.getElem_map, hs.sigs]
  obtain ⟨g0, rest, hhead⟩ := List.exists_cons_of_ne_nil (@chunkSigs_ne_nil cpu _ hpart)
  have hg0 : fetch (s.sigs ++ chunkSigs cpu parts[l]) (s.sigs.length % 2 ^ 32) = .ok g0 := by
    rw [fetch_some, hstart, hhead, List.getElem?_append_right (Nat.le_refl _), Nat.sub_self]
    rfl
  have hdrop : (s.sigs ++ chunkSigs cpu parts[l]).drop (s.sigs.length % 2 ^ 32) =
      chunkSigs cpu parts[l] := by
    rw [hstart, List.drop_left' rfl]
  refine ⟨_, Fallible.bind_eq_ok.mpr ⟨_, hoff l hl.le, Fallible.bind_eq_ok.mpr
    ⟨_, hoff (l + 1) hl, Fallible.bind_eq_ok.mpr ⟨_, tokensOf_part hl hpart,
      Fallible.bind_eq_ok.mpr ⟨_, hg0, rfl⟩⟩⟩⟩, ?_⟩
  rw [hdrop]
  constructor
  · have hsum : s.sigs.length = offset ((parts.map (chunkSigs cpu)).map List.length) l := by
      rw [hs.sigs, List.length_flatten, offset, List.map_take]
    rw [List.range_succ, List.map_append, ← hs.sigOff, List.map_singleton, ← hsum, hstart]
  · exact hflat
  · rw [List.range_succ, List.map_append, ← hs.sig0, List.map_singleton, hget, hhead]
    rfl
  · rw [List.range_succ, List.map_append, ← hs.states, List.map_singleton, stateOf, hget]
  · rw [← hflat, List.length_append, hs.sigs, ← hs.chunks]
  · rw [digestTo_succ, ← hs.digest, sigOf, stateOf, hget]
  · rw [aggregateTo_succ, ← hs.gAll, sigOf, hget]

theorem range_split {n u : ℕ} {pre post : List ℕ} (h : List.range n = pre ++ u :: post) :
    u = pre.length ∧ u < n := by
  have hlt : pre.length < (List.range n).length := by
    rw [h, List.length_append, List.length_cons]
    omega
  have hget : (List.range n)[pre.length] = u := by
    simp only [h, List.getElem_append_right (Nat.le_refl _), Nat.sub_self, List.getElem_cons_zero]
  rw [List.getElem_range] at hget
  rw [List.length_range] at hlt
  exact ⟨hget.symm, hget ▸ hlt⟩

/-- Phase S over a divided column whose parts all have tokens. -/
theorem commits_of {parts : List (List Token)} (hfew : parts.flatten.length < 2 ^ 32)
    (hne : ∀ p ∈ parts, p ≠ []) :
    ∃ s, (List.range parts.length).foldlM
        (Commits.step cpu parts.flatten (tokOff (parts.map List.length))) .new = .ok s ∧
      CommitsTo (parts.map (chunkSigs cpu)) parts.length s := by
  have hnew : CommitsTo (parts.map (chunkSigs cpu)) 0 Commits.new :=
    ⟨rfl, rfl, rfl, rfl, rfl, rfl, rfl⟩
  have hstep : ∀ pre u post s, List.range parts.length = pre ++ u :: post →
      CommitsTo (parts.map (chunkSigs cpu)) pre.length s →
      ∃ s', s.step cpu parts.flatten (tokOff (parts.map List.length)) u = .ok s' ∧
        CommitsTo (parts.map (chunkSigs cpu)) (pre ++ [u]).length s' := by
    intro pre u post s heq hs
    obtain ⟨rfl, hlt⟩ := range_split heq
    rw [List.length_append]
    exact hs.step hfew hne hlt
  obtain ⟨s, hrun, hs⟩ := Fallible.foldlM_total
    (P := fun pre s => CommitsTo (parts.map (chunkSigs cpu)) pre.length s) hnew hstep
  rw [List.length_range] at hs
  exact ⟨s, hrun, hs⟩

end Locate

end HftProj.Testkit.SigFabric
