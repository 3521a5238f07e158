import HftProj.Testkit.BakeCommits
import HftProj.Testkit.BakeRuns

/-!
# Where the bake conserves messages

The three walks count alike where every unit has a type header, the units fit 32-bit counts and
no message finds the sentinel index taken. There the bake returns, and each locate's slice
holds its tokens in message order; nowhere else does it.
-/

namespace HftProj.Testkit.SigFabric

open HftProj.Lib
open HftProj.Protocol
open LobState (Sig)
open Scatter (offset)
open SpanField (Cpu)

/-! ## The tables of a fabric -/

/-- The locates' chunk signatures. -/
def Fabric.chunked (f : Fabric) (cpu : Cpu) (ms : List (List UInt8)) : List (List Sig) :=
  (laidOut ms f.resolved.tokens).map (chunkSigs cpu)

/-- The tables over the messages, locate by locate. -/
structure Baked (cpu : Cpu) (ms : List (List UInt8)) (f : Fabric) : Prop where
  msgs : f.nMsgs = ms.length
  nLocates : f.nLocates = (locates ms).length
  counts : f.tokCounts = (locates ms).map (countOf ms)
  off : f.tokOff = tokOff f.tokCounts
  toks : f.toks = (laidOut ms f.resolved.tokens).flatten
  sigOff : f.sigOff =
    (List.range (f.nLocates + 1)).map (offset ((f.chunked cpu ms).map List.length))
  sigs : f.sigs = (f.chunked cpu ms).flatten
  sig0 : f.sig0 = (List.range f.nLocates).map fun i => ((f.chunked cpu ms).getD i []).headD .identity
  states : f.states = (List.range f.nLocates).map (stateOf (f.chunked cpu ms))
  digest : f.digest =
    sealDigest (digestTo (f.chunked cpu ms) f.nLocates) (aggregateTo (f.chunked cpu ms) f.nLocates)
  globalSigs : f.globalSigs = chunkSigs cpu f.toks
  globalSig : f.globalSig = sigTotal f.globalSigs

/-- Every unit has a type header, the units fit 32-bit counts, and no message finds the
sentinel index taken. -/
structure Fits (us : List (ℕ × List UInt8)) : Prop where
  headed : ∀ u ∈ us, 3 ≤ u.2.length
  few : us.length < 2 ^ 32
  indexed : Indexed (us.map Prod.snd)

section Total

variable {cpu : Cpu} {bodies : List (List UInt8)} {push : Bool}

theorem locates_small (ms : List (List UInt8)) : (locates ms).length % 2 ^ 32 =
    (locates ms).length := by
  have hle := locates_length_le ms
  exact Nat.mod_eq_of_lt (by omega)

theorem Histogram.Of.nLocates {h : Histogram} {ms : List (List UInt8)} (hof : h.Of ms) :
    h.nLocates = (locates ms).length := by
  rw [Histogram.nLocates, hof.1.ids, locates_small]

theorem Histogram.Of.counts {h : Histogram} {ms : List (List UInt8)} (hof : h.Of ms)
    (hfew : ms.length < 2 ^ 32) : h.counts = (locates ms).map (countOf ms) := by
  rw [hof.1.counts]
  apply List.map_congr_left
  intro loc _
  have hle : countOf ms loc ≤ ms.length := List.length_filter_le _ _
  exact Nat.mod_eq_of_lt (by omega)

theorem laidOut_ne_nil {ms : List (List UInt8)} {ts : List Token} (hlen : ms.length ≤ ts.length) :
    ∀ p ∈ laidOut ms ts, p ≠ [] := by
  intro p hp hnil
  obtain ⟨loc, hloc, rfl⟩ := List.mem_map.mp hp
  have hpos := countOf_pos hloc
  rw [← thread_zip hlen loc, ← List.length_map (f := Prod.snd)] at hpos
  rw [tokensAt] at hnil
  rw [hnil] at hpos
  exact Nat.lt_irrefl 0 hpos

/-- The bake returns where the stream fits and the resolve stage has a token for each unit. -/
theorem bake_of {r : ResolveOut} (hfits : Fits (stream bodies))
    (hresolve : resolve push bodies = .ok r) (hlen : (stream bodies).length ≤ r.tokens.length) :
    ∃ f, bakeSigFabricForced cpu bodies push = .ok f ∧ f.resolved = r ∧
      Baked cpu ((stream bodies).map Prod.snd) f := by
  obtain ⟨hhead, hfew, hindexed⟩ := hfits
  have hfew' : ((stream bodies).map Prod.snd).length < 2 ^ 32 := by rwa [List.length_map]
  have hlen' : ((stream bodies).map Prod.snd).length ≤ r.tokens.length := by rwa [List.length_map]
  obtain ⟨h, hrun, hof⟩ := histogram_of hhead hindexed
  obtain ⟨e, herun, htoks, hcols⟩ := epilogue_of rfl hof hfew' hlen' hhead hof.nLocates
  have hlengths := laidOut_lengths hlen'
  have hcounts : h.counts = (laidOut ((stream bodies).map Prod.snd) r.tokens).map List.length := by
    rw [hlengths, hof.counts hfew']
  have hparts : h.nLocates = (laidOut ((stream bodies).map Prod.snd) r.tokens).length := by
    rw [hof.nLocates, laidOut, List.length_map]
  obtain ⟨s, hsrun, hs⟩ := @commits_of cpu _ (by rwa [laidOut_length hlen']) (laidOut_ne_nil hlen')
  rw [← hcounts, ← htoks, ← hparts] at hsrun
  have hrecs : h.nMsgs ≤ e.cols.length := by
    rw [hof.2, hcols, List.length_zipWith, Nat.min_eq_left hlen']
  have hspan : spanRecords cpu h.nMsgs e.cols = .ok ((chunksOf SpanField.chunkLen
      (e.cols.take h.nMsgs)).map fun p => (SpanField.foldCols cpu p 0).1) := if_pos hrecs
  refine ⟨_, Fallible.bind_eq_ok.mpr ⟨h, hrun, Fallible.bind_eq_ok.mpr ⟨r, hresolve,
    Fallible.bind_eq_ok.mpr ⟨e, herun, Fallible.bind_eq_ok.mpr ⟨_, hspan,
      Fallible.bind_eq_ok.mpr ⟨s, hsrun, rfl⟩⟩⟩⟩⟩, rfl, ?_⟩
  have hbound : s.sigs.length % 2 ^ 32 = s.sigs.length := by
    apply Nat.mod_eq_of_lt
    rw [hs.sigs, List.take_of_length_le (by rw [List.length_map])]
    have hle := sigs_le cpu (laidOut ((stream bodies).map Prod.snd) r.tokens)
    rw [laidOut_length hlen'] at hle
    omega
  have hflat : s.sigs = ((laidOut ((stream bodies).map Prod.snd) r.tokens).map
      (chunkSigs cpu)).flatten := by
    rw [hs.sigs, List.take_of_length_le (by rw [List.length_map])]
  constructor
  · exact hof.2
  · exact hof.nLocates
  · exact hof.counts hfew'
  · rfl
  · exact htoks
  · show s.sigOff ++ [s.sigs.length % 2 ^ 32] = _
    rw [hbound, hs.sigOff, hflat, List.length_flatten, ← Scatter.offset_length, List.length_map,
      List.length_map]
    show _ = (List.range (h.nLocates + 1)).map _
    rw [hparts, List.range_succ, List.map_append]
    rfl
  · exact hflat
  · show s.sig0 = _
    rw [hs.sig0]
    exact congrArg (fun n => (List.range n).map _) hparts.symm
  · show s.states = _
    rw [hs.states]
    exact congrArg (fun n => (List.range n).map _) hparts.symm
  · show sealDigest s.digest s.gAll = _
    rw [hs.digest, hs.gAll]
    exact congrArg (fun n => sealDigest (digestTo _ n) (aggregateTo _ n)) hparts.symm
  · rfl
  · rfl

end Total

/-! ## The sentinel -/

/-- A histogram behind a message that found the sentinel index taken: one locate has a second
row, which no message counts in. -/
structure Sealed (h : Histogram) : Prop where
  inside : ∀ loc < 2 ^ 16, h.locateIndex loc < 65535
  ids : h.locateIds.length = 65537
  size : h.counts.length = 65537
  last : h.counts[65536]? = some 0

section Sentinel

variable {h h' : Histogram} {ms : List (List UInt8)} {u : ℕ × List UInt8}

/-- The count of a unit with a type header. -/
theorem Histogram.step_headed (hlen : 3 ≤ u.2.length) (hstep : h.step u = .ok h') :
    ∃ c, ({ h with nMsgs := h.nMsgs + 1 }.enter (locOf u.2)).counts[
        ({ h with nMsgs := h.nMsgs + 1 }.enter (locOf u.2)).locateIndex (locOf u.2)]? = some c ∧
      h' = { { h with nMsgs := h.nMsgs + 1 }.enter (locOf u.2) with
        counts := ({ h with nMsgs := h.nMsgs + 1 }.enter (locOf u.2)).counts.set
          (({ h with nMsgs := h.nMsgs + 1 }.enter (locOf u.2)).locateIndex (locOf u.2))
          ((c + 1) % 2 ^ 32) } := by
  rw [step, if_neg (Nat.not_lt.mpr hlen)] at hstep
  obtain ⟨c, hc, hok⟩ := Fallible.bind_eq_ok.mp hstep
  cases hok
  exact ⟨c, fetch_some.mp hc, rfl⟩

/-- A sealed table stays so. -/
theorem Sealed.step (hs : Sealed h) (hstep : h.step u = .ok h') : Sealed h' := by
  rcases Nat.lt_or_ge u.2.length 3 with hshort | hlen
  · rw [Histogram.step, if_pos hshort] at hstep
    cases hstep
    exact ⟨hs.inside, hs.ids, hs.size, hs.last⟩
  · have hinside := hs.inside (locOf u.2) (locOf_lt u.2)
    have henter : { h with nMsgs := h.nMsgs + 1 }.enter (locOf u.2) =
        { h with nMsgs := h.nMsgs + 1 } := if_neg (Nat.ne_of_lt hinside)
    obtain ⟨c, -, rfl⟩ := Histogram.step_headed hlen hstep
    rw [henter]
    refine ⟨hs.inside, hs.ids, (List.length_set ..).trans hs.size, ?_⟩
    show (h.counts.set (h.locateIndex (locOf u.2)) _)[65536]? = some 0
    rw [List.getElem?_set_ne (by omega)]
    exact hs.last

/-- The message that finds the sentinel index taken. -/
theorem Histogram.Of.seals (hof : h.Of ms) (hlen : 3 ≤ u.2.length)
    (hmem : locOf u.2 ∈ locates ms) (hhit : (locates ms).idxOf (locOf u.2) = 65535)
    (hstep : h.step u = .ok h') : Sealed h' := by
  have hfull : (locates ms).length = 65536 := by
    have hlt := List.idxOf_lt_length_of_mem hmem
    have hle := locates_length_le ms
    omega
  have hall : ∀ loc < 2 ^ 16, loc ∈ locates ms := by
    intro loc hloc
    by_contra habsent
    have hlt := locates_length_lt habsent hloc
    omega
  have hindex : h.locateIndex (locOf u.2) = 65535 := by
    rw [hof.1.index, if_pos hmem, hhit]
  have hnext : h.locateIds.length % 2 ^ 16 = 0 := by
    rw [hof.1.ids, hfull]
    decide
  have henter : { h with nMsgs := h.nMsgs + 1 }.enter (locOf u.2) =
      { locateIndex := Function.update h.locateIndex (locOf u.2) 0
        locateIds := h.locateIds ++ [locOf u.2]
        counts := h.counts ++ [0]
        nMsgs := h.nMsgs + 1 } := by
    rw [enter, if_pos hindex]
    exact congrArg (fun n => (⟨Function.update h.locateIndex (locOf u.2) n,
      h.locateIds ++ [locOf u.2], h.counts ++ [0], h.nMsgs + 1⟩ : Histogram)) hnext
  have hcounts : h.counts.length = 65536 := by
    rw [hof.1.counts, List.length_map, hfull]
  obtain ⟨c, -, rfl⟩ := step_headed hlen hstep
  rw [henter]
  refine ⟨fun loc hloc => ?_, ?_, ?_, ?_⟩
  · show Function.update h.locateIndex (locOf u.2) 0 loc < 65535
    rw [Function.update_apply]
    split
    · omega
    · rename_i hne
      have hmem' := hall loc hloc
      have hlt := List.idxOf_lt_length_of_mem hmem'
      rw [hof.1.index, if_pos hmem']
      have hother : (locates ms).idxOf loc ≠ 65535 := by
        intro heq
        apply hne
        have hlast := List.idxOf_lt_length_of_mem hmem
        rw [← List.getElem_idxOf hlt, ← List.getElem_idxOf hlast]
        congr 1
        rw [heq, hhit]
      omega
  · show (h.locateIds ++ [locOf u.2]).length = 65537
    rw [List.length_append, hof.1.ids, hfull]
    rfl
  · show ((h.counts ++ [0]).set (Function.update h.locateIndex (locOf u.2) 0 (locOf u.2)) _).length
      = 65537
    rw [List.length_set, List.length_append, hcounts]
    rfl
  · show ((h.counts ++ [0]).set (Function.update h.locateIndex (locOf u.2) 0 (locOf u.2)) _)[65536]?
      = some 0
    rw [Function.update_self, List.getElem?_set_ne (by omega),
      List.getElem?_append_right (by omega), hcounts]
    rfl

/-- A message more, where none finds the sentinel index taken. -/
theorem Indexed.snoc (hi : Indexed ms) {m : List UInt8}
    (hfree : locOf m ∈ locates ms → (locates ms).idxOf (locOf m) ≠ 65535) :
    Indexed (ms ++ [m]) := by
  intro loc hloc
  rw [countOf_snoc]
  rw [locates_snoc] at hloc
  split at hloc
  · rename_i hmem
    obtain ⟨hlt, hget⟩ := List.getElem?_eq_some_iff.mp hloc
    have hplace : (locates ms).idxOf loc = 65535 := by
      rw [← hget]
      exact (locates_nodup ms).idxOf_getElem _ hlt
    rw [if_neg fun heq => hfree hmem (by rw [← heq]; exact hplace)]
    exact hi loc hloc
  · rename_i habsent
    split
    · rename_i heq
      rw [heq, countOf_absent habsent]
    · rename_i hne
      have hmem : loc ∈ locates ms ++ [locOf m] := List.mem_of_getElem? hloc
      have hold : loc ∈ locates ms := by
        rcases List.mem_append.mp hmem with hin | hlast
        · exact hin
        · exact absurd (List.mem_singleton.mp hlast) hne
      apply hi
      rw [List.getElem?_append] at hloc
      split at hloc
      · exact hloc
      · have hlast := List.mem_of_getElem? hloc
        exact absurd (List.mem_singleton.mp hlast) hne

/-- Pass 1 over headed units either finds free indices throughout or seals the table. -/
theorem histogram_cases {us : List (ℕ × List UInt8)} (hhead : ∀ u ∈ us, 3 ≤ u.2.length)
    (hrun : us.foldlM Histogram.step .new = .ok h) :
    Indexed (us.map Prod.snd) ∨ Sealed h := by
  have hcases := Fallible.foldlM_keeps
    (P := fun pre (h : Histogram) =>
      h.Of (pre.map Prod.snd) ∧ Indexed (pre.map Prod.snd) ∨ Sealed h)
    (Or.inl ⟨Histogram.new_of, fun loc hloc => by cases hloc⟩) (by
      intro pre u post h h' heq hpre hstep
      have hlen := hhead u (by rw [heq]; simp)
      rcases hpre with ⟨hof, hi⟩ | hs
      · by_cases hhit : locOf u.2 ∈ locates (pre.map Prod.snd) ∧
            (locates (pre.map Prod.snd)).idxOf (locOf u.2) = 65535
        · exact Or.inr (hof.seals hlen hhit.1 hhit.2 hstep)
        · have hfree : locOf u.2 ∈ locates (pre.map Prod.snd) →
              (locates (pre.map Prod.snd)).idxOf (locOf u.2) ≠ 65535 :=
            fun hmem heq => hhit ⟨hmem, heq⟩
          obtain ⟨h₁, hok, hnext⟩ := Histogram.step_of hof hlen hfree
          rw [hok] at hstep
          cases hstep
          rw [List.map_append, List.map_singleton]
          exact Or.inl ⟨hnext, hi.snoc hfree⟩
      · exact Or.inr (hs.step hstep)) hrun
  rcases hcases with ⟨-, hi⟩ | hs
  · exact Or.inl hi
  · exact Or.inr hs

end Sentinel

/-! ## The panics -/

section Panics

variable {cpu : Cpu} {bodies : List (List UInt8)} {push : Bool} {f : Fabric} {h : Histogram}

/-- Pass 1 counts no unit twice. -/
theorem histogram_sum {us : List (ℕ × List UInt8)} (hhead : ∀ u ∈ us, 3 ≤ u.2.length)
    (hrun : us.foldlM Histogram.step .new = .ok h) : h.counts.sum ≤ us.length := by
  refine Fallible.foldlM_keeps (P := fun us (h : Histogram) => h.counts.sum ≤ us.length) ?_ ?_ hrun
  · exact Nat.le_refl 0
  intro pre u post h h' heq hle hstep
  obtain ⟨c, hc, rfl⟩ := Histogram.step_headed (hhead u (by rw [heq]; simp)) hstep
  have henter : ∀ (h : Histogram) (loc : ℕ), (h.enter loc).counts.sum = h.counts.sum := by
    intro h loc
    rw [Histogram.enter]
    split
    · exact (List.sum_append ..).trans (Nat.add_zero _)
    · rfl
  have hsame := henter { h with nMsgs := h.nMsgs + 1 } (locOf u.2)
  obtain ⟨hlt, hget⟩ := List.getElem?_eq_some_iff.mp hc
  have hmod : (c + 1) % 2 ^ 32 ≤ c + 1 := Nat.mod_le _ _
  rw [List.length_append, List.length_singleton]
  show (List.set _ _ _).sum ≤ _
  have hcut := List.sum_take_add_sum_drop
    ({ h with nMsgs := h.nMsgs + 1 }.enter (locOf u.2)).counts
    (({ h with nMsgs := h.nMsgs + 1 }.enter (locOf u.2)).locateIndex (locOf u.2))
  rw [List.drop_eq_getElem_cons hlt, List.sum_cons, hget] at hcut
  rw [List.sum_set, if_pos hlt]
  have hle' : h.counts.sum ≤ pre.length := hle
  have hsame' : ({ h with nMsgs := h.nMsgs + 1 }.enter (locOf u.2)).counts.sum = h.counts.sum :=
    hsame
  omega

/-- What a locate that commits adds to the signatures. -/
theorem Commits.step_adds {toks : List Token} {off : List ℕ} {s s' : Commits} {l : ℕ}
    (hstep : s.step cpu toks off l = .ok s') :
    ∃ a b ts, fetch off l = .ok a ∧ fetch off (l + 1) = .ok b ∧ ts.length ≤ b - a ∧
      s'.sigs = s.sigs ++ chunkSigs cpu ts ∧
      (s.sigs.length < 2 ^ 32 → chunkSigs cpu ts ≠ []) := by
  obtain ⟨a, ha, hstep⟩ := Fallible.bind_eq_ok.mp hstep
  obtain ⟨b, hb, hstep⟩ := Fallible.bind_eq_ok.mp hstep
  obtain ⟨ts, hts, hstep⟩ := Fallible.bind_eq_ok.mp hstep
  obtain ⟨g0, hg0, hstep⟩ := Fallible.bind_eq_ok.mp hstep
  cases hstep
  refine ⟨a, b, ts, ha, hb, ?_, rfl, ?_⟩
  · rw [tokensOf] at hts
    split at hts
    · cases hts
      exact Nat.zero_le _
    · split at hts
      · cases hts
        exact List.length_take_le _ _
      · cases hts
  · intro hfew hnil
    rw [fetch_some, Nat.mod_eq_of_lt hfew, hnil, List.append_nil,
      List.getElem?_eq_none (Nat.le_refl _)] at hg0
    cases hg0

theorem fetch_tokOff {counts : List ℕ} {i a : ℕ} (hsum : counts.sum < 2 ^ 32)
    (h : fetch (tokOff counts) i = .ok a) : a = offset counts i := by
  have hle := Scatter.offset_le_sum counts i
  rw [fetch_some] at h
  rcases Nat.lt_or_ge counts.length i with hlt | hge
  · rw [tokOff_none hlt] at h
    cases h
  · rw [tokOff_get hge, Nat.mod_eq_of_lt (by omega)] at h
    exact (Option.some.inj h).symm

/-- A sealed table has a locate without tokens, whose first signature is not there. -/
theorem Sealed.panics (hs : Sealed h) (hsum : h.counts.sum < 2 ^ 32) (toks : List Token)
    (s : Commits) :
    (List.range h.nLocates).foldlM (Commits.step cpu toks (tokOff h.counts)) .new ≠ .ok s := by
  intro hrun
  have hlocates : h.nLocates = 65537 := by
    rw [Histogram.nLocates, hs.ids]
    decide
  have hlast : offset h.counts 65537 = offset h.counts 65536 := by
    obtain ⟨hlt, hget⟩ := List.getElem?_eq_some_iff.mp hs.last
    rw [Scatter.offset_succ hlt, hget, Nat.add_zero]
  have hkeeps := Fallible.foldlM_keeps
    (P := fun (pre : List ℕ) (s : Commits) =>
      s.sigs.length ≤ offset h.counts pre.length ∧ pre.length ≤ 65536)
    ⟨Nat.zero_le _, Nat.zero_le _⟩ (by
      rintro pre u post s s' heq ⟨hle, -⟩ hstep
      obtain ⟨rfl, hlt⟩ := range_split heq
      obtain ⟨a, b, ts, ha, hb, hts, hsigs, hne⟩ := Commits.step_adds hstep
      have ha := fetch_tokOff hsum ha
      have hb := fetch_tokOff hsum hb
      have hbig := Scatter.offset_le_sum h.counts pre.length
      have hmono := @Scatter.offset_mono h.counts _ _ (Nat.le_succ pre.length)
      have hcount := chunkSigs_count cpu ts
      have hsome := List.length_pos_iff.mpr (hne (by omega))
      have hsnoc : (pre ++ [pre.length]).length = pre.length + 1 := List.length_append
      rw [hsnoc, hsigs, List.length_append]
      refine ⟨by omega, ?_⟩
      by_contra hend
      have hpos : pre.length = 65536 := by omega
      rw [ha, hb, hpos, hlast, Nat.sub_self] at hts
      omega) hrun
  have hlen := hkeeps.2
  rw [hlocates, List.length_range] at hlen
  omega

/-- A bake of few units returns only where they fit, and its tables are those of the messages. -/
theorem bake_baked (hbake : bakeSigFabricForced cpu bodies push = .ok f)
    (hfew : (stream bodies).length < 2 ^ 32) :
    Fits (stream bodies) ∧ Baked cpu ((stream bodies).map Prod.snd) f := by
  obtain ⟨hdecodes, hresolve, -, -, hlen, -⟩ := bake_span hbake
  obtain ⟨h, e, s, hh, -, -, -, hs, -⟩ := bake_stages hbake
  have hhead : ∀ u ∈ stream bodies, 3 ≤ u.2.length := fun u hu => (hdecodes u hu).1
  have hfits : Fits (stream bodies) := by
    rcases histogram_cases hhead hh with hi | hsealed
    · exact ⟨hhead, hfew, hi⟩
    · have hsum := histogram_sum hhead hh
      exact absurd hs (hsealed.panics (by omega) e.toks s)
  obtain ⟨f', hbake', -, hbaked⟩ := @bake_of cpu bodies push _ hfits hresolve hlen
  rw [hbake] at hbake'
  cases hbake'
  exact ⟨hfits, hbaked⟩

end Panics

/-! ## The resolve stage returns -/

/-- Every book-type unit has its full ITCH length. -/
def BookLengths (us : List (ℕ × List UInt8)) : Prop :=
  ∀ u ∈ us, 3 ≤ u.2.length → ty36 (u.2.getD 0 0) ≠ 9 → u.2.length = Itch5.LENGTH (u.2.getD 0 0)

/-- How long a message has to be for its decode. -/
def needs (t : UInt8) : ℕ :=
  if t = 'A'.toUInt8 ∨ t = 'F'.toUInt8 then 36
  else if t = 'E'.toUInt8 then 23
  else if t = 'C'.toUInt8 then 36
  else if t = 'X'.toUInt8 then 23
  else if t = 'D'.toUInt8 then 19
  else if t = 'U'.toUInt8 then 35
  else if t = 'P'.toUInt8 then 36
  else if t = 'Q'.toUInt8 then 31
  else 0

theorem decode_isOk (msg : List UInt8) :
    (decode msg).isOk = decide (needs (msg.getD 0 0) ≤ msg.length) := by
  obtain ⟨enough, henough⟩ : ∃ enough : ℕ → Bool, ∀ n, decide (n ≤ msg.length) = enough n :=
    ⟨_, fun _ => rfl⟩
  have hother : (Except.ok Msg.other : Except Fault Msg).isOk = enough 0 := henough 0
  rw [henough]
  simp only [decode, needs, apply_ite Except.isOk, apply_ite enough, reaching_isOk, henough, hother]

/-- The book types' lengths reach behind every field that is read. -/
theorem needs_le (t : UInt8) : needs t ≤ Itch5.LENGTH t ∧ (ty36 t = 9 → needs t = 0) := by
  have hbook : ∀ t ∈ bookTypes, needs t ≤ Itch5.LENGTH t ∧ (ty36 t = 9 → needs t = 0) :=
    List.forall_iff_forall_mem.mp (by decide)
  by_cases hmem : t ∈ bookTypes
  · exact hbook t hmem
  · have hnone : needs t = 0 := by
      simp only [bookTypes, List.mem_cons, List.not_mem_nil, or_false, not_or] at hmem
      simp [needs, hmem]
    rw [hnone]
    exact ⟨Nat.zero_le _, fun _ => rfl⟩

section Resolve

variable {bodies : List (List UInt8)}

theorem BookLengths.decodes {us : List (ℕ × List UInt8)} (h : BookLengths us)
    (hhead : ∀ u ∈ us, 3 ≤ u.2.length) : Decodes us := by
  intro u hu
  refine ⟨hhead u hu, isOk_iff.mp ?_⟩
  have hneeds := needs_le (u.2.getD 0 0)
  rw [decode_isOk, decide_eq_true_eq]
  by_cases hty : ty36 (u.2.getD 0 0) = 9
  · rw [hneeds.2 hty]
    exact Nat.zero_le _
  · rw [h u hu (hhead u hu) hty]
    exact hneeds.1

theorem threadEffects_length (f : RegisterFile) (ms : List (ℕ × Msg)) :
    (SigPush.threadEffects f ms).length = ms.length := by
  induction ms generalizing f with
  | nil => rfl
  | cons m ms ih => exact congrArg (· + 1) (ih (f.threadStep m.2))

/-- The push has a token for every unit. -/
theorem resolve_push (h : Decodes (stream bodies)) :
    ∃ r, resolve true bodies = .ok r ∧ r.tokens.length = (stream bodies).length := by
  obtain ⟨p, hrun, htokens, -⟩ := SigPush.resolvePush_decodes h
  refine ⟨_, Fallible.bind_eq_ok.mpr ⟨p, hrun, rfl⟩, ?_⟩
  rw [htokens, List.length_map, threadEffects_length, h.messages_length]

/-- So has the pull where reference 0 is live at every lookup of it. -/
theorem resolve_pull (h : Decodes (stream bodies)) (hzero : ZeroLive (stream bodies))
    (hfew : (stream bodies).length < 2 ^ 32) :
    ∃ r, resolve false bodies = .ok r ∧ r.tokens.length = (stream bodies).length := by
  rcases walk_live h hzero with ⟨-, hbig⟩ | ⟨s, -, hrun, -, htokens, -⟩
  · omega
  · exact ⟨_, Fallible.bind_eq_ok.mpr ⟨s, hrun, rfl⟩, htokens⟩

end Resolve

theorem locates_length_le_length (ms : List (List UInt8)) : (locates ms).length ≤ ms.length := by
  have hsub := (locates_nodup ms).subperm fun loc hloc => mem_locates.mp hloc
  have hle := hsub.length_le
  rwa [List.length_map] at hle

/-- A short stream fits. -/
theorem Decodes.fits {us : List (ℕ × List UInt8)} (h : Decodes us) (hfew : us.length < 65536) :
    Fits us := by
  refine ⟨fun u hu => (h u hu).1, hfew.trans (by decide), fun loc hloc => ?_⟩
  have hle := locates_length_le_length (us.map Prod.snd)
  rw [List.length_map] at hle
  rw [List.getElem?_eq_none (by omega)] at hloc
  cases hloc

/-- The push bake of a short stream that decodes returns. -/
theorem bake_returns (cpu : Cpu) {bodies : List (List UInt8)} (h : Decodes (stream bodies))
    (hfew : (stream bodies).length < 65536) :
    ∃ f, bakeSigFabricForced cpu bodies true = .ok f := by
  obtain ⟨r, hr, hlen⟩ := resolve_push h
  obtain ⟨f, hbake, -⟩ := bake_of (h.fits hfew) hr hlen.ge
  exact ⟨f, hbake⟩

/-! ## Conservation -/

/-- One token for each message, and each locate's slice its own, in message order. -/
structure Conserves (ms : List (List UInt8)) (f : Fabric) : Prop where
  tokens : f.resolved.tokens.length = ms.length
  msgs : f.nMsgs = ms.length
  column : f.toks.length = ms.length
  counted : f.tokCounts.sum = ms.length
  nLocates : f.nLocates = (locates ms).length
  slices : ∀ l loc, (locates ms)[l]? = some loc →
    ∃ a b, f.tokOff[l]? = some a ∧ f.tokOff[l + 1]? = some b ∧ a ≤ b ∧
      slice f.toks a b = tokensAt ms f.resolved.tokens loc

/-- The bake returns and conserves the messages that have a type header. -/
def BakeConserves (cpu : Cpu) (bodies : List (List UInt8)) (push : Bool) : Prop :=
  ∃ f, bakeSigFabricForced cpu bodies push = .ok f ∧ Conserves (headed (stream bodies)) f

section Conservation

variable {cpu : Cpu} {bodies : List (List UInt8)} {push : Bool} {f : Fabric}
variable {ms : List (List UInt8)}

/-- The slices' lengths add up below the last offset. -/
theorem Conserves.offsets (hc : Conserves ms f) {l : ℕ} (hl : l < (locates ms).length) :
    ∃ b, f.tokOff[l + 1]? = some b ∧ offset ((locates ms).map (countOf ms)) (l + 1) ≤ b := by
  have hsize : ∀ i (hi : i < (locates ms).length), ∃ a b, f.tokOff[i]? = some a ∧
      f.tokOff[i + 1]? = some b ∧ a + countOf ms (locates ms)[i] ≤ b := by
    intro i hi
    obtain ⟨a, b, ha, hb, hab, hslice⟩ := hc.slices i _ (List.getElem?_eq_getElem hi)
    have hlen := congrArg List.length hslice
    rw [tokensAt, List.length_map, thread_zip hc.tokens.ge] at hlen
    have hle : (slice f.toks a b).length ≤ b - a := List.length_take_le _ _
    exact ⟨a, b, ha, hb, by omega⟩
  have hnext : ∀ i (hi : i < (locates ms).length),
      offset ((locates ms).map (countOf ms)) (i + 1) =
        offset ((locates ms).map (countOf ms)) i + countOf ms (locates ms)[i] := by
    intro i hi
    have hi' : i < ((locates ms).map (countOf ms)).length := by rwa [List.length_map]
    rw [Scatter.offset_succ hi', List.getElem_map]
  induction l with
  | zero =>
      obtain ⟨a, b, -, hb, hle⟩ := hsize 0 hl
      have hfirst := hnext 0 hl
      have hzero : offset ((locates ms).map (countOf ms)) 0 = 0 := rfl
      exact ⟨b, hb, by omega⟩
  | succ l ih =>
      obtain ⟨a', ha', hle'⟩ := ih (Nat.lt_of_succ_lt hl)
      obtain ⟨a, b, ha, hb, hle⟩ := hsize (l + 1) hl
      have hstep := hnext (l + 1) hl
      rw [ha] at ha'
      cases ha'
      exact ⟨b, hb, by omega⟩

/-- A conserving bake has read a stream that fits. -/
theorem BakeConserves.fits (h : BakeConserves cpu bodies push) : Fits (stream bodies) := by
  obtain ⟨f, hbake, hc⟩ := h
  obtain ⟨hdecodes, -, -, -, -, -⟩ := bake_span hbake
  obtain ⟨h, e, s, -, -, -, -, -, hf⟩ := bake_stages hbake
  have hall := headed_eq fun u hu => (hdecodes u hu).1
  rw [hall] at hc
  have hsum := countOf_sum ((stream bodies).map Prod.snd)
  have hfew : ((stream bodies).map Prod.snd).length < 2 ^ 32 := by
    rw [← hsum, ← Scatter.offset_length, List.length_map]
    cases hcount : (locates ((stream bodies).map Prod.snd)).length with
    | zero => exact Nat.two_pow_pos 32
    | succ l =>
        obtain ⟨b, hb, hle⟩ := @Conserves.offsets f _ hc l (by omega)
        have hoff : f.tokOff = tokOff h.counts := congrArg Fabric.tokOff hf
        have hlt : b < 2 ^ 32 := by
          rw [hoff] at hb
          rcases Nat.lt_or_ge h.counts.length (l + 1) with hout | hin
          · rw [tokOff_none hout] at hb
            cases hb
          · rw [tokOff_get hin] at hb
            cases hb
            exact Nat.mod_lt _ (Nat.two_pow_pos 32)
        omega
  rw [List.length_map] at hfew
  exact (bake_baked hbake hfew).1

/-- A stream that fits, with a token for each unit, is conserved. -/
theorem Fits.conserves {r : ResolveOut} (h : Fits (stream bodies))
    (hresolve : resolve push bodies = .ok r)
    (hlen : r.tokens.length = (stream bodies).length) : BakeConserves cpu bodies push := by
  obtain ⟨f, hbake, rfl, hb⟩ := @bake_of cpu bodies push r h hresolve hlen.ge
  refine ⟨f, hbake, ?_⟩
  rw [headed_eq h.headed]
  have hlen' : ((stream bodies).map Prod.snd).length = f.resolved.tokens.length := by
    rw [List.length_map, hlen]
  have hparts := laidOut_lengths hlen'.le
  have hfew : ((stream bodies).map Prod.snd).length < 2 ^ 32 := by
    rw [List.length_map]
    exact h.few
  constructor
  · exact hlen'.symm
  · exact hb.msgs
  · rw [hb.toks, laidOut_length hlen'.le]
  · rw [hb.counts, countOf_sum]
  · exact hb.nLocates
  · intro l loc hl
    obtain ⟨hlt, rfl⟩ := List.getElem?_eq_some_iff.mp hl
    have hpart : l < (laidOut ((stream bodies).map Prod.snd) f.resolved.tokens).length := by
      rwa [laidOut, List.length_map]
    have hoff : ∀ i ≤ (locates ((stream bodies).map Prod.snd)).length,
        f.tokOff[i]? = some (offset ((laidOut ((stream bodies).map Prod.snd)
          f.resolved.tokens).map List.length) i) := by
      intro i hi
      have hle := Scatter.offset_le_sum f.tokCounts i
      rw [hparts, ← hb.counts, hb.off, tokOff_get (by rwa [hb.counts, List.length_map]),
        Nat.mod_eq_of_lt]
      rw [hb.counts, countOf_sum] at hle
      rw [hb.counts]
      omega
    have hmono := @Scatter.offset_mono ((laidOut ((stream bodies).map Prod.snd)
      f.resolved.tokens).map List.length) _ _ (Nat.le_succ l)
    have hnext := @Scatter.offset_succ ((laidOut ((stream bodies).map Prod.snd)
      f.resolved.tokens).map List.length) l (by rwa [List.length_map])
    rw [List.getElem_map] at hnext
    refine ⟨_, _, hoff l hlt.le, hoff (l + 1) hlt, hmono, ?_⟩
    rw [slice, hnext, Nat.add_sub_cancel_left, hb.toks]
    have hcells := Scatter.cells_flatten _ hpart
    rw [Scatter.cells] at hcells
    rw [hcells]
    simp only [laidOut, List.getElem_map]

end Conservation

/-- The push bake conserves messages exactly where the stream fits. So does the pull bake, as
far as reference 0 is live at every lookup of it. -/
theorem bake_conserves_iff (cpu : Cpu) (bodies : List (List UInt8))
    (hbook : BookLengths (stream bodies)) :
    (BakeConserves cpu bodies true ↔ Fits (stream bodies)) ∧
      (BakeConserves cpu bodies false → Fits (stream bodies)) ∧
      (Fits (stream bodies) → ZeroLive (stream bodies) → BakeConserves cpu bodies false) := by
  refine ⟨⟨BakeConserves.fits, fun h => ?_⟩, BakeConserves.fits, fun h hzero => ?_⟩
  · obtain ⟨r, hr, hlen⟩ := resolve_push (hbook.decodes h.headed)
    exact h.conserves hr hlen
  · obtain ⟨r, hr, hlen⟩ := resolve_pull (hbook.decodes h.headed) hzero h.few
    exact h.conserves hr hlen

/-- A body of one system event, cut behind its locate. -/
def cutEvent : List UInt8 := ['S'.toUInt8, 0, 1]

theorem stream_cutEvent : stream [0 :: 3 :: cutEvent] = [(1, cutEvent)] := by
  rw [stream, List.flatMap_singleton, units_single (by decide)]
  rfl

theorem bake_conserves_iff_cutEvent :
    (BakeConserves ⟨true, true, true⟩ [0 :: 3 :: cutEvent] true ↔
        Fits (stream [0 :: 3 :: cutEvent])) ∧
      (BakeConserves ⟨true, true, true⟩ [0 :: 3 :: cutEvent] false →
        Fits (stream [0 :: 3 :: cutEvent])) ∧
      (Fits (stream [0 :: 3 :: cutEvent]) → ZeroLive (stream [0 :: 3 :: cutEvent]) →
        BakeConserves ⟨true, true, true⟩ [0 :: 3 :: cutEvent] false) := by
  apply bake_conserves_iff
  rw [stream_cutEvent]
  intro u hu _ hty
  rw [List.mem_singleton.mp hu] at hty
  exact absurd (by decide) hty

/-- The empty unit is counted and has no row: the span fold slices behind the columns. -/
theorem empty_unit_panics : BookLengths (stream [[0, 0]]) ∧
    ¬BakeConserves ⟨true, true, true⟩ [[0, 0]] true := by
  have hstream : stream [[0, 0]] = [(1, [])] := by
    rw [stream, List.flatMap_singleton, units_single (by decide)]
    rfl
  rw [hstream]
  constructor
  · intro u hu hlen
    rw [List.mem_singleton.mp hu] at hlen
    cases hlen
  · intro h
    have hfits := h.fits
    rw [hstream] at hfits
    have hlen := hfits.headed (1, []) (List.mem_singleton_self _)
    cases hlen

end HftProj.Testkit.SigFabric
