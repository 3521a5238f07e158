import HftProj.Transport.Fidelity

/-!
# Draining the schedule

A poll releases a run of events: up to `k` groups of release times and at most 256 frames.
It returns the number of frames, so a run of nothing but tombstones looks like the end of
the stream. The drain loop delivers the whole schedule exactly when no such run comes
before an event that can be rendered.
-/

namespace HftProj.Transport

open HftProj.Lib HftProj.Protocol HftProj.Protocol.Moldudp64 HftProj.Protocol.Packet
open HftProj.Arbitrator

variable {gt : List UInt8} {sched : ReplaySchedule}

/-! ## Groups of release times -/

/-- The latest release time up to an event. -/
def runMax (vts : List ℕ) (i : ℕ) : ℕ := (vts.take (i + 1)).foldl max 0

/-- Where the group of an event ends: at the first later event released after everything
up to this one. -/
def groupStop (vts : List ℕ) (i : ℕ) : ℕ :=
  i + 1 + ((vts.drop (i + 1)).takeWhile (· ≤ runMax vts i)).length

/-- Where `k` groups from an event on end, as the 32-bit ends lead. -/
@[grind =]
def chainStop (vts : List ℕ) : ℕ → ℕ → ℕ
  | 0, e => e
  | k + 1, e => if e < vts.length then chainStop vts k (asU32 (groupStop vts e)) else e

/-- The end of the run released from an event on. -/
def releaseStop (vts : List ℕ) (k a : ℕ) : ℕ :=
  if k = 1 then groupStop vts a else chainStop vts k a

/-- The position behind `cap` events that can be rendered, within the next `fuel` ones. -/
@[grind =]
def capStop (rend : ℕ → Bool) : ℕ → ℕ → ℕ → ℕ
  | 0, _, a => a
  | _, 0, a => a
  | cap + 1, fuel + 1, a =>
      if rend a then capStop rend cap fuel (a + 1) else capStop rend (cap + 1) fuel (a + 1)

theorem foldl_max_le {vts : List ℕ} {x v : ℕ} :
    vts.foldl max x ≤ v ↔ x ≤ v ∧ ∀ w ∈ vts, w ≤ v := by
  induction vts generalizing x with
  | nil => simp
  | cons w vts ih =>
      rw [List.foldl_cons, ih, max_le_iff, List.forall_mem_cons, and_assoc]

theorem runMax_le {vts : List ℕ} {i v : ℕ} :
    runMax vts i ≤ v ↔ ∀ j w, j ≤ i → vts[j]? = some w → w ≤ v := by
  rw [runMax, foldl_max_le]
  simp only [Nat.zero_le, true_and]
  constructor
  · intro h j w hj hw
    apply h
    apply List.mem_of_getElem? (i := j)
    rw [List.getElem?_take_of_lt (by omega), hw]
  · intro h w hw
    obtain ⟨j, hj⟩ := List.getElem?_of_mem hw
    rw [List.getElem?_take] at hj
    split at hj
    · exact h j w (by omega) hj
    · cases hj

theorem le_runMax {vts : List ℕ} {i j w : ℕ} (hj : j ≤ i) (hw : vts[j]? = some w) :
    w ≤ runMax vts i :=
  runMax_le.mp (Nat.le_refl _) j w hj hw

theorem runMax_succ {vts : List ℕ} {a i : ℕ} (ha : a ≤ i)
    (hall : ∀ j w, a < j → j < i → vts[j]? = some w → w ≤ runMax vts a) {w : ℕ}
    (hw : vts[i]? = some w) : max (runMax vts a) w = runMax vts i := by
  apply Nat.le_antisymm
  · apply max_le
    · exact runMax_le.mpr fun j v hj hv => le_runMax (by omega) hv
    · exact le_runMax (Nat.le_refl _) hw
  · apply runMax_le.mpr
    intro j v hj hv
    rcases Nat.lt_trichotomy j i with hlt | rfl | hgt
    · apply le_max_of_le_left
      by_cases hja : j ≤ a
      · exact le_runMax hja hv
      · exact hall j v (by omega) hlt hv
    · rw [hw] at hv
      cases hv
      exact le_max_right _ _
    · omega

/-! ## The precomputed ends -/

/-- The length of the longest prefix that passes a test, by its entries. -/
theorem takeWhile_length_eq {p : ℕ → Bool} {l : List ℕ} {n : ℕ} :
    (l.takeWhile p).length = n ↔
      (∀ j, j < n → ∃ w, l[j]? = some w ∧ p w = true) ∧ ∀ w, l[n]? = some w → p w = false := by
  induction l generalizing n with
  | nil =>
      cases n with
      | zero => simp
      | succ n =>
          simp only [List.takeWhile_nil, List.length_nil, List.getElem?_nil]
          constructor
          · nofun
          · rintro ⟨h, -⟩
            obtain ⟨w, hw, -⟩ := h 0 (Nat.succ_pos n)
            cases hw
  | cons x l ih =>
      by_cases hx : p x = true
      · rw [List.takeWhile_cons_of_pos hx, List.length_cons]
        cases n with
        | zero =>
            constructor
            · nofun
            · rintro ⟨-, h⟩
              have := h x rfl
              rw [hx] at this
              cases this
        | succ n =>
            rw [Nat.add_right_cancel_iff, ih]
            constructor
            · rintro ⟨hin, hout⟩
              refine ⟨?_, hout⟩
              intro j hj
              cases j with
              | zero => exact ⟨x, rfl, hx⟩
              | succ j => exact hin j (by omega)
            · rintro ⟨hin, hout⟩
              exact ⟨fun j hj => hin (j + 1) (by omega), hout⟩
      · rw [List.takeWhile_cons_of_neg hx, List.length_nil]
        constructor
        · rintro rfl
          refine ⟨fun j hj => absurd hj (Nat.not_lt_zero j), ?_⟩
          intro w hw
          cases hw
          simpa using hx
        · rintro ⟨hin, -⟩
          by_contra hn
          obtain ⟨w, hw, hp⟩ := hin 0 (by omega)
          cases hw
          exact hx hp

/-- A group ends behind events that start no other, at one that does or at the end. -/
theorem groupStop_eq {vts : List ℕ} {i n : ℕ} (hi : i < n) :
    groupStop vts i = n ↔
      (∀ j, i < j → j < n → ∃ w, vts[j]? = some w ∧ w ≤ runMax vts i) ∧
        ∀ w, vts[n]? = some w → runMax vts i < w := by
  have hrun : groupStop vts i = n ↔
      ((vts.drop (i + 1)).takeWhile (· ≤ runMax vts i)).length = n - (i + 1) := by
    unfold groupStop
    omega
  rw [hrun, takeWhile_length_eq]
  simp only [List.getElem?_drop, decide_eq_true_eq, decide_eq_false_iff_not, Nat.not_le,
    show i + 1 + (n - (i + 1)) = n by omega]
  apply and_congr _ Iff.rfl
  constructor
  · intro h j hj hjn
    have := h (j - (i + 1)) (by omega)
    rwa [show i + 1 + (j - (i + 1)) = j by omega] at this
  · intro h j hj
    exact h (i + 1 + j) (by omega) (by omega)

theorem groupStop_gt (vts : List ℕ) (i : ℕ) : i < groupStop vts i := by
  unfold groupStop
  omega

theorem groupEnds_getElem? {fuel base : ℕ} {vts : List ℕ} (hfuel : vts.length ≤ fuel) {i : ℕ}
    (hi : i < vts.length) :
    (groupEnds fuel base vts)[i]? = some (asU32 (base + groupStop vts i)) := by
  induction fuel generalizing base vts i with
  | zero => omega
  | succ fuel ih =>
      cases vts with
      | nil => exact absurd hi (Nat.not_lt_zero i)
      | cons v vts =>
          simp only [groupEnds]
          generalize hr : (vts.takeWhile (· ≤ v)).length = run
          obtain ⟨hin, hout⟩ := takeWhile_length_eq.mp hr
          simp only [decide_eq_true_eq, decide_eq_false_iff_not, Nat.not_le] at hin hout
          have hrep : (List.replicate (run + 1) (asU32 (base + run + 1))).length = run + 1 :=
            List.length_replicate
          by_cases hle : i ≤ run
          · -- an event of the first group
            have hmax : runMax (v :: vts) i = v := by
              apply Nat.le_antisymm
              · apply runMax_le.mpr
                intro l w hl hw
                cases l with
                | zero => cases hw; exact Nat.le_refl _
                | succ l =>
                    obtain ⟨w', hw', hle'⟩ := hin l (by omega)
                    rw [List.getElem?_cons_succ, hw'] at hw
                    cases hw
                    exact hle'
              · exact le_runMax (Nat.zero_le _) rfl
            have hstop : groupStop (v :: vts) i = run + 1 := by
              apply (groupStop_eq (by omega)).mpr
              rw [hmax]
              refine ⟨?_, fun w hw => hout w hw⟩
              intro j hj hjn
              obtain ⟨j, rfl⟩ : ∃ l, j = l + 1 := ⟨j - 1, by omega⟩
              exact hin j (by omega)
            rw [List.getElem?_append_left (by omega), List.getElem?_replicate,
              if_pos (by omega), hstop, Nat.add_assoc]
          · -- an event behind it: what comes before it does not matter
            obtain ⟨k, rfl⟩ : ∃ k, i = run + 1 + k := ⟨i - (run + 1), by omega⟩
            have hlen : k < (vts.drop run).length := by
              rw [List.length_drop]
              simp only [List.length_cons] at hi
              omega
            have hget : ∀ j, (v :: vts)[run + 1 + j]? = (vts.drop run)[j]? := by
              intro j
              rw [List.getElem?_drop, show run + 1 + j = run + j + 1 by omega,
                List.getElem?_cons_succ]
            have hfirst : v < runMax (vts.drop run) k := by
              have h0 : 0 < (vts.drop run).length := by omega
              have hhead := List.getElem?_eq_getElem h0
              have : (vts.drop run)[0]? = vts[run]? := by rw [List.getElem?_drop, Nat.add_zero]
              exact Nat.lt_of_lt_of_le (hout _ (this ▸ hhead)) (le_runMax (Nat.zero_le _) hhead)
            have hmax : runMax (v :: vts) (run + 1 + k) = runMax (vts.drop run) k := by
              apply Nat.le_antisymm
              · apply runMax_le.mpr
                intro l w hl hw
                by_cases hlr : l ≤ run
                · cases l with
                  | zero => cases hw; exact Nat.le_of_lt hfirst
                  | succ l =>
                      obtain ⟨w', hw', hle'⟩ := hin l (by omega)
                      rw [List.getElem?_cons_succ, hw'] at hw
                      cases hw
                      omega
                · obtain ⟨l, rfl⟩ : ∃ j, l = run + 1 + j := ⟨l - (run + 1), by omega⟩
                  rw [hget] at hw
                  exact le_runMax (by omega) hw
              · apply runMax_le.mpr
                intro l w hl hw
                exact le_runMax (j := run + 1 + l) (by omega) (by rw [hget, hw])
            have hstop : groupStop (v :: vts) (run + 1 + k) =
                run + 1 + groupStop (vts.drop run) k := by
              have hgt := groupStop_gt (vts.drop run) k
              obtain ⟨hin', hout'⟩ := (groupStop_eq hgt).mp rfl
              apply (groupStop_eq (by omega)).mpr
              rw [hmax, hget]
              refine ⟨?_, hout'⟩
              intro j hj hjn
              obtain ⟨l, rfl⟩ : ∃ l, j = run + 1 + l := ⟨j - (run + 1), by omega⟩
              rw [hget]
              exact hin' l (by omega) (by omega)
            simp only [List.length_cons] at hfuel
            rw [List.getElem?_append_right (by omega), hrep, Nat.add_sub_cancel_left,
              ih (by rw [List.length_drop]; omega) hlen, hstop]
            congr 2
            omega

/-! ## The run of a poll -/

@[simp] theorem capStop_zero (rend : ℕ → Bool) (fuel a : ℕ) : capStop rend 0 fuel a = a := by
  cases fuel <;> rfl

theorem le_capStop (rend : ℕ → Bool) (cap fuel a : ℕ) : a ≤ capStop rend cap fuel a := by
  induction fuel generalizing cap a with
  | zero => cases cap <;> exact Nat.le_refl _
  | succ fuel ih =>
      cases cap with
      | zero => exact Nat.le_refl _
      | succ cap =>
          rw [capStop]
          split
          · exact Nat.le_of_succ_le (ih cap (a + 1))
          · exact Nat.le_of_succ_le (ih (cap + 1) (a + 1))

theorem capStop_le (rend : ℕ → Bool) (cap fuel a : ℕ) : capStop rend cap fuel a ≤ a + fuel := by
  induction fuel generalizing cap a with
  | zero => cases cap <;> exact Nat.le_refl _
  | succ fuel ih =>
      cases cap with
      | zero => exact Nat.le_add_right _ _
      | succ cap =>
          rw [capStop]
          split
          · have := ih cap (a + 1)
            omega
          · have := ih (cap + 1) (a + 1)
            omega

/-- A run that can release something does. -/
theorem exists_lt_capStop {rend : ℕ → Bool} {cap fuel a i : ℕ} (hcap : 0 < cap) (ha : a ≤ i)
    (hi : i < a + fuel) (hr : rend i = true) :
    ∃ j, a ≤ j ∧ j < capStop rend cap fuel a ∧ rend j = true := by
  induction fuel generalizing a with
  | zero => omega
  | succ fuel ih =>
      obtain ⟨cap, rfl⟩ : ∃ c, cap = c + 1 := ⟨cap - 1, by omega⟩
      rw [capStop]
      by_cases hra : rend a = true
      · rw [if_pos hra]
        exact ⟨a, Nat.le_refl _, le_capStop rend cap fuel (a + 1), hra⟩
      · rw [if_neg hra]
        have hne : a ≠ i := by
          rintro rfl
          exact hra hr
        obtain ⟨j, hj, hlt, hrj⟩ := ih (a := a + 1) (by omega) (by omega)
        exact ⟨j, by omega, hlt, hrj⟩

namespace ReplayTransport

section Loop

variable (t : ReplayTransport) {rend : ℕ → Bool}
  (hrend : ∀ i, (t.metas.getD i {}).len ≠ 0 ↔ rend i = true)

include hrend

/-- Without exact pacing the loop stops at its limit or when the batch is full. -/
theorem releaseLoop_stop_coalesced (vclock limitEvt cap fuel evt : ℕ)
    (out : List (ℕ × FrameMeta)) (hfuel : fuel = limitEvt - evt) :
    (t.releaseLoop false vclock limitEvt cap fuel evt out).1 =
      capStop rend (cap - out.length) fuel evt := by
  induction fuel generalizing evt out with
  | zero => cases h : cap - out.length <;> simp [releaseLoop, capStop]
  | succ fuel ih =>
      simp only [releaseLoop, Bool.false_eq_true, false_and, if_false]
      by_cases hfull : out.length < cap
      · obtain ⟨c, hc⟩ : ∃ c, cap - out.length = c + 1 := ⟨cap - out.length - 1, by omega⟩
        rw [if_pos ⟨by omega, hfull⟩, hc, capStop]
        by_cases hz : (t.metas.getD evt {}).len = 0
        · have hr : rend evt ≠ true := fun h => (hrend evt).mpr h hz
          rw [if_pos hz, if_neg hr, ih (evt + 1) out (by omega), hc]
        · rw [if_neg hz, if_pos ((hrend evt).mp hz), ih (evt + 1) _ (by omega)]
          congr 1
          rw [List.length_append, List.length_singleton]
          omega
      · rw [if_neg (fun h => hfull h.2), show cap - out.length = 0 by omega, capStop_zero]

/-- In exact pacing it also stops at the first event released after the clock. -/
theorem releaseLoop_stop_exact (vclock cap fuel evt : ℕ) (out : List (ℕ × FrameMeta))
    (hfuel : fuel = t.vts.length - evt) :
    (t.releaseLoop true vclock t.vts.length cap fuel evt out).1 =
      capStop rend (cap - out.length) ((t.vts.drop evt).takeWhile (· ≤ vclock)).length evt := by
  induction fuel generalizing evt out with
  | zero =>
      rw [List.drop_of_length_le (by omega)]
      cases h : cap - out.length <;> simp [releaseLoop, capStop]
  | succ fuel ih =>
      have hlt : evt < t.vts.length := by omega
      have hget : t.vts.getD evt 0 = t.vts[evt] := by
        rw [List.getD_eq_getElem?_getD, List.getElem?_eq_getElem hlt, Option.getD_some]
      simp only [releaseLoop, true_and, hget]
      rw [List.drop_eq_getElem_cons hlt]
      by_cases hfull : out.length < cap
      · obtain ⟨c, hc⟩ : ∃ c, cap - out.length = c + 1 := ⟨cap - out.length - 1, by omega⟩
        rw [if_pos ⟨hlt, hfull⟩]
        by_cases hv : vclock < t.vts[evt]
        · rw [if_pos hv, List.takeWhile_cons_of_neg (by simpa using hv), hc]
          rfl
        · rw [if_neg hv, List.takeWhile_cons_of_pos (by simpa using hv), List.length_cons, hc,
            capStop]
          by_cases hz : (t.metas.getD evt {}).len = 0
          · have hr : rend evt ≠ true := fun h => (hrend evt).mpr h hz
            rw [if_pos hz, if_neg hr, ih (evt + 1) out (by omega), hc]
          · rw [if_neg hz, if_pos ((hrend evt).mp hz), ih (evt + 1) _ (by omega)]
            congr 1
            rw [List.length_append, List.length_singleton]
            omega
      · rw [if_neg (fun h => hfull h.2), show cap - out.length = 0 by omega, capStop_zero]

end Loop

/-- The chain of a poll without a clamp follows the precomputed ends. -/
theorem releaseChain_fst (t : ReplayTransport) (hlen : t.metas.length = t.vts.length)
    (hends : t.groupEnd = groupEnds t.vts.length 0 t.vts) (k e mx : ℕ) :
    (t.releaseChain none k e mx).1 = chainStop t.vts k e := by
  induction k generalizing e mx with
  | zero => rfl
  | succ k ih =>
      rw [releaseChain, chainStop, hlen]
      split
      · rename_i he
        have hend : t.groupEnd.getD e 0 = asU32 (groupStop t.vts e) := by
          rw [hends, List.getD_eq_getElem?_getD, groupEnds_getElem? (Nat.le_refl _) he,
            Option.getD_some, Nat.zero_add]
        simp only [Option.any_none, Bool.false_eq_true, if_false, ih, hend]
      · rfl

end ReplayTransport

/-! ## Which events have an entry -/

/-- The directory has an entry for exactly the events that can be rendered. -/
def EntryFor (gt : List UInt8) (ev : SchedEvent) (m : FrameMeta) : Prop :=
  m.len ≠ 0 ↔ (bodyOf gt ev.kind).isSome = true

/-- What holds of the construction after the events `pre`, whatever their sizes. -/
structure Framed (gt : List UInt8) (pre : List SchedEvent) (b : Build) : Prop where
  times : b.vts = pre.map fun e => e.releaseVt.toNat
  scratch : b.scratch.length = ARENA_SLOT_SIZE
  cursors : b.cursors.1.Synced gt ∧ b.cursors.2.Synced gt
  counted : ∀ key v, b.aliasMap.lookup key = some v → v.blkCount ≠ 0
  entries : List.Forall₂ (EntryFor gt) pre b.metas

namespace Framed

variable {pre : List SchedEvent} {b : Build} {ev : SchedEvent}

/-- Entering a rendered event whose blocks are counted adds its entry. -/
theorem enter {evI len off blkBase blkCount valid : ℕ} {rejected : Bool}
    (htimes : b.vts = (pre ++ [ev]).map fun e => e.releaseVt.toNat)
    (hscratch : b.scratch.length = ARENA_SLOT_SIZE)
    (hcursors : b.cursors.1.Synced gt ∧ b.cursors.2.Synced gt)
    (hcounted : ∀ key v, b.aliasMap.lookup key = some v → v.blkCount ≠ 0)
    (hentries : List.Forall₂ (EntryFor gt) pre b.metas) (hlen : len ≠ 0)
    (hsome : (bodyOf gt ev.kind).isSome = true)
    (hcount : ev.kind.aliasKey ≠ none → blkCount ≠ 0) :
    Framed gt (pre ++ [ev])
      (b.enter sched evI ev len rejected off blkBase blkCount valid) := by
  have hneg : ¬(ev.kind.aliasKey.isSome = true ∧ blkCount = 0) := by
    rintro ⟨hkey, hz⟩
    exact hcount (Option.isSome_iff_ne_none.mp hkey) hz
  rw [Build.enter, if_neg hneg]
  exact
    { times := htimes
      scratch := hscratch
      cursors := hcursors
      counted := hcounted
      entries := List.rel_append hentries (.cons ⟨fun _ => hsome, fun _ => hlen⟩ .nil) }

theorem start : Framed gt [] {} where
  times := rfl
  scratch := by simp
  cursors := ⟨Cursor.synced_start, Cursor.synced_start⟩
  counted := nofun
  entries := .nil

/-- Rendering an event adds an entry exactly if it can be rendered. -/
theorem render (h : Framed gt pre b) (session : SessionId) (evI : ℕ) :
    Framed gt (pre ++ [ev]) (b.render gt sched session evI ev) := by
  have hsel : (if ev.feed.toNat % 2 = 1 then b.cursors.2 else b.cursors.1).Synced gt := by
    split
    · exact h.cursors.2
    · exact h.cursors.1
  obtain ⟨hslot, hsync, hframe, hle⟩ := renderEventStandalone_spec sched ev session
    h.scratch hsel
  have hc := swap_synced h.cursors hsync (ev.feed.toNat % 2 = 1)
  have htimes : b.vts ++ [ev.releaseVt.toNat] =
      (pre ++ [ev]).map fun e => e.releaseVt.toNat := by
    simp [h.times]
  unfold Build.render
  simp only
  generalize renderEventStandalone gt ev sched session b.scratch _ = r at *
  cases hbody : bodyOf gt ev.kind with
  | none =>
      rw [frameOf, hbody, Option.map_none, Option.map_eq_none_iff] at hframe
      rw [hframe]
      exact
        { times := htimes
          scratch := hslot
          cursors := hc
          counted := h.counted
          entries := List.rel_append h.entries (.cons (by simp [EntryFor, hbody]) .nil) }
  | some body =>
      obtain ⟨hlen, htake⟩ := rendered_len hslot hframe hle hbody
      rw [hlen]
      have hne : HEADER_LEN + body.length ≠ 0 := by simp [HEADER_LEN]
      have hsome : (bodyOf gt ev.kind).isSome = true := by rw [hbody]; rfl
      have happend : ∀ rejected, Framed gt (pre ++ [ev]) (Build.append { b with
          scratch := r.slot
          cursors := if ev.feed.toNat % 2 = 1 then (b.cursors.1, r.cursor)
            else (r.cursor, b.cursors.2)
          vts := b.vts ++ [ev.releaseVt.toNat] } sched evI ev (HEADER_LEN + body.length)
            rejected) := by
        intro rejected
        obtain ⟨base, hindex, -⟩ := indexBlocks_spec hbody htake b.triples
        have hcount : ∀ key, ev.kind.aliasKey = some key → (ev.kind.blocks body).length ≠ 0 :=
          fun key hkey => (blocks_length hkey body).1 ▸ (blocks_length hkey body).2
        simp only [Build.append, hindex]
        refine enter htimes hslot hc ?_ ?_ hne hsome ?_
        · intro key v hv
          cases hkey : ev.kind.aliasKey with
          | none =>
              simp only [hkey] at hv
              exact h.counted key v hv
          | some k =>
              simp only [hkey] at hv
              split at hv
              · rw [List.lookup_append] at hv
                rcases Option.or_eq_some_iff.mp hv with hold | ⟨-, hnew⟩
                · exact h.counted key v hold
                · rw [List.lookup_cons] at hnew
                  split at hnew
                  · cases hnew
                    exact hcount k hkey
                  · cases hnew
              · exact h.counted key v hv
        · exact h.entries
        · intro hkey
          obtain ⟨key, hkey⟩ := Option.ne_none_iff_exists'.mp hkey
          exact hcount key hkey
      simp only [Build.place]
      split
      · rename_i key v hout
        obtain ⟨hkey, hv⟩ := aliasOutcome_aliased hout
        have hcount := h.counted key v hv
        refine enter htimes hslot hc ?_ ?_ hne hsome fun _ => hcount
        · intro k w hw
          rw [gate_lookup] at hw
          obtain ⟨u, hu, rfl⟩ := Option.map_eq_some_iff.mp hw
          split
          · exact h.counted k u hu
          · exact h.counted k u hu
        · exact h.entries
      · exact happend false
      · exact happend true

theorem renderAll (sched : ReplaySchedule) (session : SessionId) {pre : List SchedEvent}
    (post : List SchedEvent) (evI : ℕ) {b : Build} (h : Framed gt pre b) :
    Framed gt (pre ++ post) (Build.renderAll gt sched session evI post b) := by
  induction post generalizing pre evI b with
  | nil => rwa [List.append_nil]
  | cons ev post ih =>
      have hstep : Framed gt (pre ++ [ev]) (b.render gt sched session evI ev) :=
        h.render session evI
      have := ih (evI + 1) hstep
      rwa [List.append_assoc, List.singleton_append] at this

end Framed

/-! ## The drain loop -/

/-- Event `i` can be rendered. -/
def renders (gt : List UInt8) (sched : ReplaySchedule) (i : ℕ) : Bool :=
  sched.events[i]?.any fun ev => (bodyOf gt ev.kind).isSome

def ReplaySchedule.vts (sched : ReplaySchedule) : List ℕ :=
  sched.events.map fun e => e.releaseVt.toNat

/-- The events from `a` up to `b` that can be rendered, in schedule order. -/
def renderedIn (gt : List UInt8) (sched : ReplaySchedule) (a b : ℕ) : List ℕ :=
  (List.range' a (b - a)).filter (renders gt sched)

/-- The event a poll at `a` leaves the cursor at, by the release times and the events that
can be rendered. -/
def pollStop (gt : List UInt8) (sched : ReplaySchedule) (k a : ℕ) : ℕ :=
  capStop (renders gt sched) ReplayTransport.BATCH_CAPACITY (releaseStop sched.vts k a - a) a

/-- The positions that a sequence of polls passes through. -/
inductive PollStart (gt : List UInt8) (sched : ReplaySchedule) (k : ℕ) : ℕ → Prop where
  | start : PollStart gt sched k 0
  | next {a : ℕ} : PollStart gt sched k a → a < sched.events.length →
      PollStart gt sched k (pollStop gt sched k a)

/-- Wherever polls get to, the run released next has an event that can be rendered, if one
is left at all. -/
def Fed (gt : List UInt8) (sched : ReplaySchedule) (k : ℕ) : Prop :=
  ∀ a, PollStart gt sched k a → (∃ i, a ≤ i ∧ renders gt sched i = true) →
    ∃ i, a ≤ i ∧ i < releaseStop sched.vts k a ∧ renders gt sched i = true

namespace ReplayTransport

/-- The events of the frames of the next poll. -/
def released (t : ReplayTransport) : List ℕ :=
  (t.pollEvents none BATCH_CAPACITY).2.map Prod.fst

/-- The loop `while poll() > 0`, with the events of the frames it delivers. -/
inductive Drains : ReplayTransport → List ℕ → Prop where
  | stop {t : ReplayTransport} : t.poll.2.length = 0 → Drains t []
  | more {t : ReplayTransport} {evts : List ℕ} : t.poll.2.length > 0 → Drains t.poll.1 evts →
      Drains t (t.released ++ evts)

/-- On a freshly reset transport the loop delivers every event that can be rendered, once
and in schedule order. -/
def Drained (gt : List UInt8) (sched : ReplaySchedule) (k : ℕ) : Prop :=
  ∀ (session : SessionId) (ops : List Op) (session' : SessionId),
    Drains ((((new gt sched session).applyAll ops).setPollCoalesce k).reset session')
      (renderedIn gt sched 0 sched.events.length)

/-- A transport whose cursor stands at event `a`, with the clock where polls leave it. -/
structure Poised (gt : List UInt8) (sched : ReplaySchedule) (k : ℕ) (t : ReplayTransport) (a : ℕ) :
    Prop where
  idx : t.eventIdx = a
  times : t.vts = sched.vts
  ends : t.groupEnd = groupEnds t.vts.length 0 t.vts
  entries : List.Forall₂ (EntryFor gt) sched.events t.metas
  coalesce : t.coalesce = k
  clamp : t.clockClamp = none
  clock : ∀ v, sched.vts[a]? = some v → k = 1 → max t.virtualClock v = runMax sched.vts a

theorem poll_released (t : ReplayTransport) : t.poll.2.length = t.released.length := by
  unfold poll pollClamped released
  simp only
  split
  · simp
  · split <;> simp

theorem poll_state (t : ReplayTransport) :
    ∃ batchEvent, t.poll.1 = { (t.pollEvents none BATCH_CAPACITY).1 with
      batchEvent := batchEvent } := by
  unfold poll pollClamped
  simp only
  split
  · exact ⟨_, rfl⟩
  · split
    · exact ⟨_, rfl⟩
    · exact ⟨_, rfl⟩

variable {k a : ℕ} {t : ReplayTransport}

theorem Poised.renders (h : Poised gt sched k t a) (i : ℕ) :
    (t.metas.getD i {}).len ≠ 0 ↔ renders gt sched i = true := by
  have hlen := h.entries.length_eq
  rw [Transport.renders, List.getD_eq_getElem?_getD]
  by_cases hi : i < sched.events.length
  · rw [List.getElem?_eq_getElem hi, List.getElem?_eq_getElem (hlen ▸ hi)]
    exact h.entries.get hi (hlen ▸ hi)
  · rw [List.getElem?_eq_none (by omega), List.getElem?_eq_none (by omega)]
    simp

/-- The events emitted between two positions are those that can be rendered. -/
theorem Poised.listed (h : Poised gt sched k t a) (b : ℕ) :
    (listed t.metas a b).map Prod.fst = renderedIn gt sched a b := by
  rw [ReplayTransport.listed, renderedIn, List.map_filterMap, ← List.filterMap_eq_filter]
  apply List.filterMap_congr
  intro i _
  have := h.renders i
  by_cases hr : Transport.renders gt sched i = true
  · rw [if_neg (this.mpr hr), Option.map_some, Option.guard, if_pos hr]
  · have hz : (t.metas.getD i {}).len = 0 := by
      by_contra hz
      exact hr (this.mp hz)
    rw [if_pos hz, Option.map_none, Option.guard, if_neg hr]

/-- One poll releases the run of its position and leaves the transport poised behind it. -/
theorem Poised.poll (h : Poised gt sched k t a) (hk : 1 ≤ k) (ha : a < sched.events.length) :
    t.released = renderedIn gt sched a (pollStop gt sched k a) ∧
      Poised gt sched k t.poll.1 (pollStop gt sched k a) := by
  have hidx := h.idx
  have hlen := h.entries.length_eq
  have hvlen : sched.vts.length = sched.events.length := List.length_map _
  have hget : t.vts.getD a 0 = sched.vts[a] := by
    rw [h.times, List.getD_eq_getElem?_getD, List.getElem?_eq_getElem (hvlen ▸ ha),
      Option.getD_some]
  have hstop : (t.pollEvents none BATCH_CAPACITY).1.eventIdx = pollStop gt sched k a ∧
      (k = 1 → (t.pollEvents none BATCH_CAPACITY).1.virtualClock = runMax sched.vts a) := by
    unfold pollEvents
    rw [if_neg (by omega), h.clamp, hidx, h.coalesce]
    simp only [Option.or_none, Option.map_none, Option.getD_none, hget]
    by_cases hone : k = 1
    · subst hone
      have hclock : max (max t.virtualClock sched.vts[a])
          (t.releaseChain none 1 a 0).2 = runMax sched.vts a := by
        rw [← h.clock _ (List.getElem?_eq_getElem (hvlen ▸ ha)) rfl, releaseChain,
          if_pos (by omega)]
        simp only [Option.any_none, Bool.false_eq_true, if_false, releaseChain, hget]
        omega
      have hrun : ((t.vts.drop a).takeWhile (· ≤ runMax sched.vts a)).length =
          groupStop sched.vts a - a := by
        have hv : a < t.vts.length := by rw [h.times]; omega
        rw [List.drop_eq_getElem_cons hv, List.takeWhile_cons_of_pos, List.length_cons, groupStop,
          h.times]
        · omega
        · simp only [h.times, decide_eq_true_eq]
          exact le_runMax (Nat.le_refl _) (List.getElem?_eq_getElem (hvlen ▸ ha))
      have hmetas : t.metas.length = t.vts.length := by rw [h.times]; omega
      simp only [beq_self_eq_true, if_true, hclock, hmetas]
      refine ⟨?_, fun _ => trivial⟩
      rw [releaseLoop_stop_exact t h.renders _ _ _ _ _ rfl, hrun]
      rfl
    · have hbeq : (k == 1) = false := by simpa using hone
      simp only [hbeq, Bool.false_eq_true, if_false]
      refine ⟨?_, fun h1 => absurd h1 hone⟩
      rw [releaseLoop_stop_coalesced t h.renders _ _ _ _ _ _ rfl,
        releaseChain_fst t (by rw [h.times]; omega) h.ends, h.times]
      rw [pollStop, releaseStop, if_neg hone]
      rfl
  constructor
  · rw [released, (t.pollEvents_eq none BATCH_CAPACITY).2, hstop.1, hidx]
    exact h.listed _
  · obtain ⟨eventIdx, virtualClock, hframe⟩ := t.pollEvents_frame none BATCH_CAPACITY
    obtain ⟨batchEvent, hstate⟩ := t.poll_state
    have hclock : k = 1 → t.poll.1.virtualClock = runMax sched.vts a := by
      rw [hstate]
      exact hstop.2
    have hidx' : t.poll.1.eventIdx = pollStop gt sched k a := by
      rw [hstate]
      exact hstop.1
    exact
      { idx := hidx'
        times := by rw [hstate, hframe]; exact h.times
        ends := by rw [hstate, hframe]; exact h.ends
        entries := by rw [hstate, hframe]; exact h.entries
        coalesce := by rw [hstate, hframe]; exact h.coalesce
        clamp := by rw [hstate, hframe]; exact h.clamp
        clock := by
          intro v hv hone
          subst hone
          rw [hclock rfl]
          have hle := capStop_le (Transport.renders gt sched) BATCH_CAPACITY
            (releaseStop sched.vts 1 a - a) a
          have hgt := groupStop_gt sched.vts a
          apply runMax_succ (le_capStop _ _ _ _) _ hv
          intro j w haj hjb hw
          obtain ⟨hin, -⟩ := (groupStop_eq hgt).mp rfl
          have hjs : j < groupStop sched.vts a := by
            rw [releaseStop, if_pos rfl] at hle
            rw [releaseStop, if_pos rfl] at hjb
            omega
          obtain ⟨w', hw', hle'⟩ := hin j haj hjs
          rw [hw] at hw'
          cases hw'
          exact hle' }

/-- A poll at the end of the schedule releases nothing. -/
theorem Poised.exhausted (h : Poised gt sched k t a) (ha : sched.events.length ≤ a) :
    t.released = [] := by
  have hlen := h.entries.length_eq
  have hidx := h.idx
  rw [released, pollEvents, if_pos (by omega)]
  rfl

/-! ## The whole schedule -/

theorem renderedIn_append (gt : List UInt8) (sched : ReplaySchedule) {a b c : ℕ} (hab : a ≤ b) (hbc : b ≤ c) :
    renderedIn gt sched a c = renderedIn gt sched a b ++ renderedIn gt sched b c := by
  rw [renderedIn, renderedIn, renderedIn, ← List.filter_append]
  congr 1
  rw [show c - a = (b - a) + (c - b) by omega, ← List.range'_append_1,
    Nat.add_sub_cancel' hab]

theorem renderedIn_eq_nil {a b : ℕ} :
    renderedIn gt sched a b = [] ↔ ∀ i, a ≤ i → i < b → Transport.renders gt sched i = false := by
  rw [renderedIn, List.filter_eq_nil_iff]
  simp only [List.mem_range'_1, Bool.not_eq_true]
  constructor
  · intro h i hi hib
    exact h i ⟨hi, by omega⟩
  · intro h i hi
    exact h i hi.1 (by omega)

theorem renders_lt {i : ℕ} (h : Transport.renders gt sched i = true) :
    i < sched.events.length := by
  by_contra hi
  rw [Transport.renders, List.getElem?_eq_none (by omega)] at h
  cases h

/-- A poll passes an event that can be rendered exactly if its run has one. -/
theorem pollStop_passes (hcap : 0 < BATCH_CAPACITY) {i : ℕ} (ha : a ≤ i)
    (hi : i < releaseStop sched.vts k a) (hr : Transport.renders gt sched i = true) :
    ∃ j, a ≤ j ∧ j < pollStop gt sched k a ∧ Transport.renders gt sched j = true :=
  exists_lt_capStop hcap ha (by omega) hr

theorem pollStop_le_releaseStop (h : a < pollStop gt sched k a) :
    pollStop gt sched k a ≤ releaseStop sched.vts k a := by
  have := capStop_le (Transport.renders gt sched) BATCH_CAPACITY (releaseStop sched.vts k a - a) a
  unfold pollStop at h ⊢
  omega

theorem groupStop_le {vts : List ℕ} {i : ℕ} (hi : i < vts.length) :
    groupStop vts i ≤ vts.length := by
  have := (List.takeWhile_prefix (l := vts.drop (i + 1)) (· ≤ runMax vts i)).length_le
  rw [List.length_drop] at this
  unfold groupStop
  omega

theorem chainStop_le {vts : List ℕ} {e : ℕ} (he : e ≤ vts.length) :
    chainStop vts k e ≤ vts.length := by
  induction k generalizing e with
  | zero => exact he
  | succ k ih =>
      rw [chainStop]
      split
      · rename_i hlt
        exact ih (Nat.le_trans (Nat.mod_le _ _) (groupStop_le hlt))
      · exact he

/-- A run never leads past the schedule. -/
theorem pollStop_le_length (gt : List UInt8) (k : ℕ) (ha : a < sched.events.length) :
    pollStop gt sched k a ≤ sched.events.length := by
  have hvlen : sched.vts.length = sched.events.length := List.length_map _
  have hle := capStop_le (Transport.renders gt sched) BATCH_CAPACITY
    (releaseStop sched.vts k a - a) a
  have hstop : releaseStop sched.vts k a ≤ sched.vts.length := by
    unfold releaseStop
    split
    · exact groupStop_le (by omega)
    · exact chainStop_le (by omega)
  unfold pollStop
  omega

/-- The loop delivers the rest of the schedule from every position, if runs are fed. -/
theorem Poised.drains (hfed : Fed gt sched k) (hk : 1 ≤ k) (hstart : PollStart gt sched k a)
    (h : Poised gt sched k t a) : Drains t (renderedIn gt sched a sched.events.length) := by
  generalize hn : sched.events.length - a = n
  induction n using Nat.strong_induction_on generalizing a t with
  | _ n ih =>
      by_cases hrest : ∃ i, a ≤ i ∧ Transport.renders gt sched i = true
      · obtain ⟨i, hai, hr⟩ := hrest
        have ha : a < sched.events.length := Nat.lt_of_le_of_lt hai (renders_lt hr)
        obtain ⟨j, haj, hj, hrj⟩ := hfed a hstart ⟨i, hai, hr⟩
        obtain ⟨l, hal, hl, hrl⟩ := pollStop_passes (by decide) haj hj hrj
        obtain ⟨hreleased, hnext⟩ := h.poll hk ha
        have hle := pollStop_le_length gt k ha
        rw [renderedIn_append gt sched (by omega : a ≤ pollStop gt sched k a) hle, ← hreleased]
        apply Drains.more
        · rw [poll_released, hreleased]
          apply List.length_pos_iff.mpr
          intro hnil
          have := renderedIn_eq_nil.mp hnil l hal hl
          rw [hrl] at this
          cases this
        · exact ih _ (by omega) (hstart.next ha) hnext rfl
      · have hnil : renderedIn gt sched a sched.events.length = [] := by
          apply renderedIn_eq_nil.mpr
          intro i hai _
          simpa using fun hr => hrest ⟨i, hai, hr⟩
        rw [hnil]
        apply Drains.stop
        rw [poll_released]
        by_cases ha : a < sched.events.length
        · have hle := pollStop_le_length gt k ha
          rw [(h.poll hk ha).1, List.length_eq_zero_iff]
          apply renderedIn_eq_nil.mpr
          intro i hai hi
          exact renderedIn_eq_nil.mp hnil i hai (by omega)
        · rw [h.exhausted (by omega)]
          rfl

/-- Whatever the loop passes through, it still delivers the rest of the schedule. -/
theorem Poised.of_drains (hk : 1 ≤ k) (h : Poised gt sched k t 0)
    (hd : Drains t (renderedIn gt sched 0 sched.events.length)) (ha : PollStart gt sched k a) :
    (∃ t', Poised gt sched k t' a ∧ Drains t' (renderedIn gt sched a sched.events.length)) ∨
      renderedIn gt sched a sched.events.length = [] := by
  induction ha with
  | start => exact .inl ⟨t, h, hd⟩
  | @next a ha hlt ih =>
      have hge := le_capStop (Transport.renders gt sched) BATCH_CAPACITY
        (releaseStop sched.vts k a - a) a
      have hle := pollStop_le_length gt k hlt
      have hsplit := renderedIn_append gt sched hge hle
      rcases ih with ⟨t', hpoised, hdrains⟩ | hnil
      · obtain ⟨hreleased, hnext⟩ := hpoised.poll hk hlt
        generalize hall : renderedIn gt sched a sched.events.length = all at hdrains hsplit
        cases hdrains with
        | stop hz =>
            right
            exact (List.append_eq_nil_iff.mp hsplit.symm).2
        | more hpos hrest =>
            rw [hreleased] at hsplit
            left
            exact ⟨_, hnext, List.append_cancel_left hsplit ▸ hrest⟩
      · right
        rw [hnil] at hsplit
        exact (List.append_eq_nil_iff.mp hsplit.symm).2

/-- The transport after a reset stands at the first event. -/
theorem reset_poised (gt : List UInt8) (sched : ReplaySchedule) (session : SessionId) (ops : List Op) (k : ℕ) (session' : SessionId) :
    Poised gt sched (max k 1)
      ((((new gt sched session).applyAll ops).setPollCoalesce k).reset session') 0 := by
  have hstart : Framed gt [] {} := Framed.start
  have hframed := hstart.renderAll sched session sched.events 0
  obtain ⟨hsched, hmetas, hvts, hends⟩ := applyAll_static (new gt sched session) ops
  exact
    { idx := rfl
      times := hvts.trans hframed.times
      ends := by
        change ((new gt sched session).applyAll ops).groupEnd =
          groupEnds ((new gt sched session).applyAll ops).vts.length 0
            ((new gt sched session).applyAll ops).vts
        rw [hends, hvts]
        rfl
      entries := by
        change List.Forall₂ _ _ ((new gt sched session).applyAll ops).metas
        rw [hmetas]
        exact hframed.entries
      coalesce := rfl
      clamp := rfl
      clock := by
        intro v hv _
        change max ((new gt sched session).applyAll ops).schedule.firstVt v = _
        rw [hsched]
        change max sched.firstVt v = _
        cases hev : sched.events with
        | nil => simp [ReplaySchedule.vts, hev] at hv
        | cons ev rest =>
            simp only [ReplaySchedule.vts, hev, List.map_cons, List.getElem?_cons_zero,
              Option.some.injEq] at hv
            simp [ReplaySchedule.firstVt, ReplaySchedule.vts, hev, runMax, hv] }

/-- The loop delivers the whole schedule exactly when no run of tombstones comes before an
event that can be rendered. -/
theorem drained_iff_fed (k : ℕ) : Drained gt sched k ↔ Fed gt sched (max k 1) := by
  have hk : 1 ≤ max k 1 := Nat.le_max_right k 1
  constructor
  · intro hdrained a ha hrest
    obtain ⟨i, hai, hr⟩ := hrest
    have h0 := reset_poised gt sched ⟨List.replicate 10 0, rfl⟩ [] k
      ⟨List.replicate 10 0, rfl⟩
    have hne : renderedIn gt sched a sched.events.length ≠ [] := by
      intro hnil
      have := renderedIn_eq_nil.mp hnil i hai (renders_lt hr)
      rw [hr] at this
      cases this
    rcases h0.of_drains hk (hdrained _ _ _) ha with ⟨t, hpoised, hdrains⟩ | hnil
    · have halt : a < sched.events.length := Nat.lt_of_le_of_lt hai (renders_lt hr)
      obtain ⟨hreleased, -⟩ := hpoised.poll hk halt
      have hpos : renderedIn gt sched a (pollStop gt sched (max k 1) a) ≠ [] := by
        intro hnil
        rw [← hreleased] at hnil
        generalize renderedIn gt sched a sched.events.length = all at hdrains hne
        cases hdrains with
        | stop _ => exact hne rfl
        | more hpos _ =>
            rw [poll_released, hnil] at hpos
            exact absurd hpos (Nat.lt_irrefl 0)
      by_contra hnone
      apply hpos
      apply renderedIn_eq_nil.mpr
      intro j haj hj
      have hle := pollStop_le_releaseStop
        (by omega : a < pollStop gt sched (max k 1) a)
      simpa using fun hrj => hnone ⟨j, haj, by omega, hrj⟩
    · exact absurd hnil hne
  · intro hfed session ops session'
    exact (reset_poised gt sched session ops k session').drains hfed hk .start

/-- A packet of messages that the ground truth does not have, then a heartbeat. -/
def holed : ReplaySchedule where
  events := [⟨1, 0, .packet 1 5 1⟩, ⟨2, 0, .heartbeat 1⟩]
  sessionSplit := none

/-- The loop stops at the tombstone and never delivers the heartbeat. -/
theorem tombstone_ends_drain : ¬Drained [] holed 1 := by
  intro hdrained
  have hrun := hdrained ⟨List.replicate 10 0, rfl⟩ [] ⟨List.replicate 10 0, rfl⟩
  have hall : renderedIn [] holed 0 holed.events.length = [1] := by decide
  have hzero : ((((new [] holed ⟨List.replicate 10 0, rfl⟩).applyAll []).setPollCoalesce 1).reset
      ⟨List.replicate 10 0, rfl⟩).poll.2.length = 0 := by decide +kernel
  generalize renderedIn [] holed 0 holed.events.length = all at hrun hall
  cases hrun with
  | stop _ => cases hall
  | more hpos _ =>
      rw [hzero] at hpos
      exact absurd hpos (Nat.lt_irrefl 0)

end ReplayTransport

end HftProj.Transport
