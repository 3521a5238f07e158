import HftProj.Testkit.Locates

/-!
# The layout of the tokens

The epilogue scatters the tokens by locate. With counts that fit 32 bits the column ends as the
locates' tokens side by side, each locate's in message order.
-/

namespace HftProj.Testkit.SigFabric

open HftProj.Lib
open Scatter (cells offset)

/-! ## Offsets -/

theorem foldl_wrapping (l : List ℕ) (a : ℕ) (ha : a < 2 ^ 32) :
    l.foldl (fun acc c => (acc + c) % 2 ^ 32) a = (a + l.sum) % 2 ^ 32 := by
  induction l generalizing a with
  | nil => exact (Nat.mod_eq_of_lt ha).symm
  | cons c l ih =>
      rw [List.foldl_cons, ih _ (Nat.mod_lt _ (by decide)), List.sum_cons, Nat.mod_add_mod,
        Nat.add_assoc]

theorem tokOff_get {counts : List ℕ} {i : ℕ} (h : i ≤ counts.length) :
    (tokOff counts)[i]? = some (offset counts i % 2 ^ 32) := by
  rw [tokOff, List.getElem?_scanl, if_pos h, foldl_wrapping _ _ (by decide), Nat.zero_add]
  rfl

theorem tokOff_none {counts : List ℕ} {i : ℕ} (h : counts.length < i) :
    (tokOff counts)[i]? = none := by
  rw [tokOff, List.getElem?_scanl, if_neg (Nat.not_le.mpr h)]

/-! ## The tokens of a locate -/

/-- A message with its token, under the message's locate. -/
def itemLoc (p : List UInt8 × Token) : ℕ := locOf p.1

/-- A locate's tokens in message order. -/
def tokensAt (ms : List (List UInt8)) (ts : List Token) (loc : ℕ) : List Token :=
  (Threads.thread itemLoc loc (ms.zip ts)).map Prod.snd

/-- The locates' tokens in the order of the locates. -/
def laidOut (ms : List (List UInt8)) (ts : List Token) : List (List Token) :=
  (locates ms).map (tokensAt ms ts)

section Items

variable {ms : List (List UInt8)} {ts : List Token}

theorem thread_zip (h : ms.length ≤ ts.length) (loc : ℕ) :
    (Threads.thread itemLoc loc (ms.zip ts)).length = countOf ms loc := by
  have hmap : (Threads.thread itemLoc loc (ms.zip ts)).map Prod.fst =
      Threads.thread locOf loc ms := by
    rw [Threads.thread, Threads.thread, ← List.map_fst_zip h, List.filter_map]
    rw [List.map_fst_zip h]
    rfl
  rw [countOf, ← hmap, List.length_map]

theorem laidOut_lengths (h : ms.length ≤ ts.length) :
    (laidOut ms ts).map List.length = (locates ms).map (countOf ms) := by
  rw [laidOut, List.map_map]
  apply List.map_congr_left
  intro loc _
  rw [Function.comp, tokensAt, List.length_map, thread_zip h]

theorem laidOut_length (h : ms.length ≤ ts.length) :
    (laidOut ms ts).flatten.length = ms.length := by
  rw [List.length_flatten, laidOut_lengths h, countOf_sum]

end Items

/-! ## The epilogue -/

/-- Where a locate's tokens start. -/
def startAt (ms : List (List UInt8)) (loc : ℕ) : ℕ :=
  offset ((locates ms).map (countOf ms)) ((locates ms).idxOf loc)

/-- The layout so far. -/
structure Laid (all : List (List UInt8)) (ts : List Token) (pre : List (List UInt8))
    (e : Epilogue) : Prop where
  length : e.toks.length = all.length
  cols : e.cols = List.zipWith spanRow pre ts
  cur : e.cur = (locates all).map (countOf pre)
  rest : e.rest = ts.drop pre.length
  placed : Scatter.Placed itemLoc Prod.snd (startAt all) e.toks (pre.zip ts)

section Epilogue

variable {h : Histogram} {all pre post : List (List UInt8)} {ts : List Token} {e : Epilogue}

theorem startAt_room {loc : ℕ} (hmem : loc ∈ locates all) :
    startAt all loc + countOf all loc ≤ all.length := by
  have hlt := List.idxOf_lt_length_of_mem hmem
  have hnext : startAt all loc + countOf all loc =
      offset ((locates all).map (countOf all)) ((locates all).idxOf loc + 1) := by
    rw [startAt, Scatter.offset_succ (by rwa [List.length_map]), List.getElem_map,
      List.getElem_idxOf hlt]
  rw [hnext, ← countOf_sum all]
  exact Scatter.offset_le_sum _ _

theorem startAt_apart (hlen : all.length ≤ ts.length) :
    Scatter.Apart itemLoc (startAt all) (all.zip ts) := by
  have hkeys : (all.zip ts).map itemLoc = all.map locOf := by
    rw [← congrArg (List.map locOf) (List.map_fst_zip hlen), List.map_map]
    rfl
  intro k hk k' hk' hne
  rw [hkeys, ← mem_locates] at hk hk'
  have hlt := List.idxOf_lt_length_of_mem hk
  have hlt' := List.idxOf_lt_length_of_mem hk'
  have hidx : (locates all).idxOf k ≠ (locates all).idxOf k' := by
    intro heq
    apply hne
    rw [← List.getElem_idxOf hlt, ← List.getElem_idxOf hlt']
    congr 1
  have hsize : (locates all).idxOf k < ((locates all).map (countOf all)).length := by
    rwa [List.length_map]
  have hsize' : (locates all).idxOf k' < ((locates all).map (countOf all)).length := by
    rwa [List.length_map]
  have hparts := Scatter.offset_apart hsize hsize' hidx
  rw [List.getElem_map, List.getElem_map, List.getElem_idxOf hlt, List.getElem_idxOf hlt'] at hparts
  rw [thread_zip hlen, thread_zip hlen]
  exact hparts

theorem zipWith_snoc {α β γ : Type*} (f : α → β → γ) {xs : List α} {ys : List β} {x : α} {y : β}
    (hy : ys[xs.length]? = some y) :
    List.zipWith f (xs ++ [x]) ys = List.zipWith f xs ys ++ [f x y] := by
  induction xs generalizing ys with
  | nil =>
      cases ys with
      | nil => cases hy
      | cons y' ys =>
          cases hy
          rfl
  | cons x' xs ih =>
      cases ys with
      | nil => cases hy
      | cons y' ys => exact congrArg (f x' y' :: ·) (ih hy)

theorem zip_snoc {m : List UInt8} {t : Token} (ht : ts[pre.length]? = some t) :
    (pre ++ [m]).zip ts = pre.zip ts ++ [(m, t)] := zipWith_snoc Prod.mk ht

theorem zip_prefix {α β : Type*} (xs post : List α) (ys : List β) :
    ∃ tail, (xs ++ post).zip ys = xs.zip ys ++ tail := by
  induction xs generalizing ys with
  | nil => exact ⟨post.zip ys, rfl⟩
  | cons x xs ih =>
      cases ys with
      | nil => exact ⟨[], rfl⟩
      | cons y ys =>
          obtain ⟨tail, htail⟩ := ih ys
          exact ⟨tail, congrArg ((x, y) :: ·) htail⟩

theorem laid_nil (hof : h.Of all) (hlocates : h.nLocates = (locates all).length)
    (ts : List Token) : Laid all ts [] (.new h ts) := by
  constructor
  · show (List.replicate h.nMsgs Token.empty).length = all.length
    rw [List.length_replicate, hof.2]
  · rfl
  · show List.replicate h.nLocates 0 = _
    rw [hlocates]
    exact List.map_const'.symm
  · rfl
  · exact Scatter.placed_nil _

/-- One message more, with counts that fit. -/
theorem Laid.step (hof : h.Of all) (hfew : all.length < 2 ^ 32) (hlen : all.length ≤ ts.length)
    {u : ℕ × List UInt8} (hall : all = pre ++ u.2 :: post) (hhead : 3 ≤ u.2.length)
    (hlaid : Laid all ts pre e) :
    ∃ e', e.step h u = .ok e' ∧ Laid all ts (pre ++ [u.2]) e' := by
  have hmem : locOf u.2 ∈ locates all := by
    rw [mem_locates, hall, List.map_append]
    exact List.mem_append_right _ List.mem_cons_self
  have hlt := List.idxOf_lt_length_of_mem hmem
  have hpre : pre.length < ts.length := by
    rw [hall, List.length_append, List.length_cons] at hlen
    omega
  have hindex : h.locateIndex (locOf u.2) = (locates all).idxOf (locOf u.2) := by
    rw [hof.1.index, if_pos hmem]
  have hcounts : h.counts = (locates all).map (countOf all) := by
    rw [hof.1.counts]
    apply List.map_congr_left
    intro loc _
    have hsub : countOf all loc ≤ all.length := List.length_filter_le _ _
    exact Nat.mod_eq_of_lt (by omega)
  have hoff : fetch (tokOff h.counts) (h.locateIndex (locOf u.2)) =
      .ok (startAt all (locOf u.2)) := by
    have hroom := startAt_room hmem
    rw [fetch_some, hindex, hcounts, tokOff_get (by rw [List.length_map]; exact hlt.le)]
    exact congrArg some (Nat.mod_eq_of_lt (by rw [startAt] at hroom; omega))
  have hcur : fetch e.cur (h.locateIndex (locOf u.2)) = .ok (countOf pre (locOf u.2)) := by
    rw [fetch_some, hindex, hlaid.cur, List.getElem?_map, List.getElem?_eq_getElem hlt,
      List.getElem_idxOf hlt]
    rfl
  have hrest : e.rest = ts[pre.length] :: ts.drop (pre.length + 1) := by
    rw [hlaid.rest, List.drop_eq_getElem_cons hpre]
  have hget : ts[pre.length]? = some ts[pre.length] := List.getElem?_eq_getElem hpre
  obtain ⟨tail, htail⟩ := zip_prefix (pre ++ [u.2]) post ts
  rw [← List.append_cons, ← hall, zip_snoc hget, ← List.append_cons] at htail
  have hroom : startAt all (locOf u.2) +
      (Threads.thread itemLoc (locOf u.2) (all.zip ts)).length ≤ e.toks.length := by
    rw [thread_zip hlen, hlaid.length]
    exact startAt_room hmem
  have hapart := @startAt_apart all ts hlen
  rw [htail] at hroom hapart
  obtain ⟨hw, hplaced⟩ := hlaid.placed.step (x := (u.2, ts[pre.length])) hapart hroom
  have hprelen : (Threads.thread itemLoc (itemLoc (u.2, ts[pre.length])) (pre.zip ts)).length =
      countOf pre (locOf u.2) := thread_zip hpre.le _
  rw [hprelen] at hw hplaced
  refine ⟨{
    toks := e.toks.set (startAt all (locOf u.2) + countOf pre (locOf u.2)) ts[pre.length]
    cols := e.cols ++ [spanRow u.2 ts[pre.length]]
    cur := e.cur.set (h.locateIndex (locOf u.2)) ((countOf pre (locOf u.2) + 1) % 2 ^ 32)
    rest := ts.drop (pre.length + 1) }, ?_, ?_⟩
  · rw [Epilogue.step, if_neg (Nat.not_lt.mpr hhead)]
    refine Fallible.bind_eq_ok.mpr ⟨_, hoff, Fallible.bind_eq_ok.mpr ⟨_, hcur, ?_⟩⟩
    rw [hrest]
    exact if_pos hw
  · constructor
    · exact (List.length_set ..).trans hlaid.length
    · rw [zipWith_snoc spanRow hget, ← hlaid.cols]
    · show e.cur.set _ _ = _
      rw [hindex, hlaid.cur, map_set_idxOf (locates_nodup _)]
      apply List.map_congr_left
      intro loc _
      rw [countOf_snoc]
      split
      · rename_i heq
        have hlast : countOf pre loc < all.length := by
          have hsub : countOf pre loc ≤ pre.length := List.length_filter_le _ _
          rw [hall, List.length_append, List.length_cons]
          omega
        rw [heq] at hlast ⊢
        exact Nat.mod_eq_of_lt (by omega)
      · rfl
    · rw [List.length_append]
      rfl
    · rw [zip_snoc hget]
      exact hplaced

/-- The epilogue of a histogram that fits lays the tokens out locate by locate. -/
theorem epilogue_of {us : List (ℕ × List UInt8)} (hall : all = us.map Prod.snd) (hof : h.Of all)
    (hfew : all.length < 2 ^ 32) (hlen : all.length ≤ ts.length)
    (hhead : ∀ u ∈ us, 3 ≤ u.2.length) (hlocates : h.nLocates = (locates all).length) :
    ∃ e, us.foldlM (Epilogue.step h) (.new h ts) = .ok e ∧
      e.toks = (laidOut all ts).flatten ∧ e.cols = List.zipWith spanRow all ts := by
  have hstep : ∀ pre u post e, us = pre ++ u :: post → Laid all ts (pre.map Prod.snd) e →
      ∃ e', e.step h u = .ok e' ∧ Laid all ts ((pre ++ [u]).map Prod.snd) e' := by
    intro pre u post e heq hlaid
    have hcut : all = pre.map Prod.snd ++ u.2 :: post.map Prod.snd := by
      rw [hall, heq, List.map_append, List.map_cons]
    rw [List.map_append, List.map_singleton]
    exact hlaid.step hof hfew hlen hcut (hhead u (by rw [heq]; simp))
  obtain ⟨e, hrun, hlaid⟩ := Fallible.foldlM_total
    (P := fun pre e => Laid all ts (pre.map Prod.snd) e) (laid_nil hof hlocates ts) hstep
  rw [← hall] at hlaid
  refine ⟨e, hrun, ?_, hlaid.cols⟩
  apply Scatter.flatten_of_cells
  · rw [hlaid.length, laidOut_lengths hlen, countOf_sum]
  · intro i hi
    have hlocs : i < (locates all).length := by rwa [laidOut, List.length_map] at hi
    have hplaced := hlaid.placed (locates all)[i]
    rw [thread_zip hlen, startAt, (locates_nodup all).idxOf_getElem i hlocs] at hplaced
    have hsize : (laidOut all ts)[i].length = countOf all (locates all)[i] := by
      simp only [laidOut, List.getElem_map, tokensAt, List.length_map, thread_zip hlen]
    rw [laidOut_lengths hlen, hsize, hplaced]
    simp only [laidOut, List.getElem_map, tokensAt]

end Epilogue

end HftProj.Testkit.SigFabric
