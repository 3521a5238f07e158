import HftProj.Testkit.RxArrays

/-!
# The toroidal fix guard

A fix of a toroidal window waits for a span that is counted from the previous window's base
and length, while the ready cursor moves at chunk ends and window closes only. A window
that is longer than the one before can so wait for a span of its own that no store has
exposed.
-/

namespace HftProj.Testkit.RxSubmit

open HftProj.Lib

variable {c : Config} {s : Sink}

/-- The last place within the open window at which the ready cursor was stored: the window's
start, or the last chunk end behind it. -/
def exposurePoint (base pos : ℕ) : ℕ := max base (chunk * (pos / chunk))

/-- A chunk that the core has claimed is marked, and it is not complete. -/
def Claimed (s : Sink) : Prop :=
  s.curInline.isSome = true → s.submitRem ≠ chunk ∧ s.st.isInline (s.nextSpan / chunk) = true

/-- What the ready stores have exposed, and the cursors they are made from. -/
structure Exposure (s : Sink) : Prop where
  tracker : s.submitRem + s.nextSpan % chunk = chunk
  fold_next : s.foldPos ≤ s.nextSpan
  fold_exposed : s.foldPos ≤ s.log.exposed
  inline_le : s.inlineFoldSeq ≤ s.inlineSeq
  cleared : s.marksCleared = false → s.winOpen = false ∧ s.curInline = none
  closed : s.winOpen = false → s.winSs = false ∧ s.log.exposed = max s.nextSpan s.log.promised ∧
    (s.everOpened = true → s.st.lastWindowCount ≤ s.nextSpan)
  opened : s.winOpen = true → s.everOpened = true ∧ s.winBase ≤ s.nextSpan ∧
    (s.torWin = true → s.winCount0 ≤ s.winBase)
  classic : s.winOpen = true → s.winSs = false →
    s.log.exposed = max (exposurePoint s.winBase s.nextSpan) s.log.promised
  serving : s.winSs = true → s.log.exposed = max s.winBase s.log.promised ∧
    s.winPre ≤ s.log.promised ∧ s.curInline = none

/-- A run under check lies in the open chunk, and its lanes at or behind the cursor. -/
structure Within (s : Sink) (r : Commit) : Prop where
  claimed : s.curInline.isSome = true → s.st.isInline (s.nextSpan / chunk) = true
  off : s.curInline = none → r.off = 0
  nonempty : 0 < r.words.length
  rem : r.words.length ≤ s.submitRem
  width : 0 < r.width
  fits : r.off + r.width ≤ r.words.length
  lanes : ∀ p ∈ r.bad, s.nextSpan - s.winBase ≤ p.1 ∧
    p.1 < s.nextSpan - s.winBase + (r.off + r.width)

/-- What holds of the exposure at each place of the core. -/
def Staged (s : Sink) : Ctl → Prop
  | .idle | .drain => Claimed s
  | .pace _ => s.winOpen = true ∧ Claimed s
  | .reuse _ _ _ | .warm _ _ _ _ => s.winOpen = false ∧ s.marksCleared = true ∧ Claimed s
  | .watermark tor _ _ _ => s.winOpen = false ∧ s.marksCleared = true ∧ Claimed s ∧
      (tor = true → s.everOpened = true)
  | .straddle _ => s.winOpen = true ∧ s.winSs = false ∧ s.submitRem ≠ chunk ∧
      s.st.isInline (s.nextSpan / chunk) = true
  | .batch _ => s.winOpen = true ∧ s.winSs = false ∧ Claimed s
  | .claim b => s.winOpen = true ∧ s.winSs = false ∧ s.submitRem = chunk ∧ b.words ≠ []
  | .fix r => s.winOpen = true ∧ s.winSs = false ∧ Within s r

def Kept (j : Joint) : Prop := Exposure j.1 ∧ Staged j.1 j.2

/-! ## Chunks -/

theorem floor_add {n k rem : ℕ} (htrack : rem + n % chunk = chunk) (hk : k < rem) :
    (n + k) / chunk = n / chunk := by
  have hsplit := Nat.div_add_mod n chunk
  rw [← hsplit, Nat.add_assoc, Nat.mul_add_div (by decide), Nat.mul_add_div (by decide)]
  have hlt : n % chunk + k < chunk := by omega
  rw [Nat.div_eq_of_lt hlt, Nat.div_eq_of_lt (Nat.mod_lt _ (by decide))]

theorem tracker_add {n k rem : ℕ} (htrack : rem + n % chunk = chunk) (hk : k < rem) :
    rem - k + (n + k) % chunk = chunk := by
  have hmod : (n + k) % chunk = n % chunk + k := by
    rw [Nat.add_mod]
    have hlt : n % chunk + k < chunk := by omega
    have hksmall : k % chunk = k := Nat.mod_eq_of_lt (by omega)
    rw [hksmall, Nat.mod_eq_of_lt hlt]
  omega

/-- At a chunk's completion the cursor is a chunk end. -/
theorem chunk_end {n k : ℕ} (htrack : k + n % chunk = chunk) :
    (n + k) % chunk = 0 ∧ chunk * ((n + k) / chunk) = n + k := by
  have hmod : (n + k) % chunk = 0 := by
    have hsum : n + k = chunk * (n / chunk + 1) := by
      have hsplit := Nat.div_add_mod n chunk
      rw [Nat.mul_add, Nat.mul_one]
      omega
    rw [hsum, Nat.mul_mod_right]
  exact ⟨hmod, Nat.mul_div_cancel' (Nat.dvd_of_mod_eq_zero hmod)⟩

theorem exposurePoint_le {base pos : ℕ} (h : base ≤ pos) : exposurePoint base pos ≤ pos :=
  max_le h (Nat.mul_div_le pos chunk)

theorem tracker_skipRem {rem n k : ℕ} (h : rem + n % chunk = chunk) :
    Sink.skipRem rem k + (n + k) % chunk = chunk := by
  induction k generalizing rem n with
  | zero => exact h
  | succ k ih =>
      have hnext : (if rem = 1 then chunk else rem - 1) + (n + 1) % chunk = chunk := by
        unfold chunk at h ⊢
        split_ifs <;> omega
      rw [Sink.skipRem, Nat.add_comm k 1, ← Nat.add_assoc]
      exact ih hnext

/-! ## Groups and runs -/

theorem groupWidth_pos {inline : Bool} {left : ℕ} : 0 < groupWidth inline left := by
  unfold groupWidth
  split_ifs <;> decide

theorem openGroup_kept {r : Commit} {j : Joint} (h : Exposure s) (hopen : s.winOpen = true)
    (hclassic : s.winSs = false)
    (hclaim : s.curInline.isSome = true → s.st.isInline (s.nextSpan / chunk) = true)
    (hoff : s.curInline = none → r.off = 0) (hleft : r.off < r.words.length)
    (hrem : r.words.length ≤ s.submitRem) (hstep : openGroup c s r = some j) : Kept j := by
  dsimp only [openGroup] at hstep
  split_ifs at hstep with hfits
  obtain rfl := Option.some_inj.mp hstep
  have hwidth := groupWidth_le s.curInline.isSome (Nat.sub_pos_of_lt hleft)
  refine ⟨h, hopen, hclassic, hclaim, hoff, Nat.lt_of_le_of_lt (Nat.zero_le _) hleft, hrem,
    groupWidth_pos, ?_, ?_⟩
  · show r.off + groupWidth s.curInline.isSome (r.words.length - r.off) ≤ r.words.length
    omega
  · intro p hp
    obtain ⟨g, hg, rfl, -⟩ := mem_divergent.mp hp
    simp only [List.length_take, List.length_drop] at hg
    constructor
    · show s.nextSpan - s.winBase ≤ s.nextSpan - s.winBase + r.off + g
      omega
    · show s.nextSpan - s.winBase + r.off + g < s.nextSpan - s.winBase +
        (r.off + groupWidth s.curInline.isSome (r.words.length - r.off))
      omega

theorem openRun_kept {b : PackedBatch} {j : Joint} (h : Exposure s) (hopen : s.winOpen = true)
    (hclassic : s.winSs = false)
    (hclaim : s.curInline.isSome = true → s.st.isInline (s.nextSpan / chunk) = true)
    (hne : b.words ≠ []) (hstep : openRun c s b = some j) : Kept j := by
  refine openGroup_kept h hopen hclassic hclaim (fun _ => rfl) ?_ (List.length_take_le _ _) hstep
  have hpos := List.length_pos_iff.mpr hne
  have hmod : s.nextSpan % chunk < chunk := Nat.mod_lt _ (by decide)
  have htrack := h.tracker
  simp only [List.length_take]
  omega

theorem Exposure.setFixed {idx w : ℕ} (h : Exposure s) : Exposure (s.setFixed idx w) :=
  { h with }

/-- Emission inside a chunk leaves the last exposure where it was. -/
theorem Exposure.advance (h : Exposure s) (words : List ℕ) (pending : ℕ) (hopen : s.winOpen = true)
    (hlt : words.length < s.submitRem) :
    Exposure { s.emit words with
      submitRem := s.submitRem - words.length, pendingLen := pending } := by
  have hnext : s.nextSpan ≤ s.nextSpan + words.length := Nat.le_add_right _ _
  have hpoint : exposurePoint s.winBase (s.nextSpan + words.length) =
      exposurePoint s.winBase s.nextSpan := by
    unfold exposurePoint
    rw [floor_add h.tracker hlt]
  exact
    { h with
      tracker := tracker_add h.tracker hlt
      fold_next := h.fold_next.trans hnext
      closed := fun hc => absurd (hopen.symm.trans hc) nofun
      opened := fun ho => ⟨(h.opened ho).1, (h.opened ho).2.1.trans hnext, (h.opened ho).2.2⟩
      classic := fun ho hs => (h.classic ho hs).trans (by rw [← hpoint]; rfl) }

theorem flushPending_eq (s : Sink) : s.flushPending = { s with
    curInline := if s.pendingLen = 0 then s.curInline else none, pendingLen := 0 } := by
  unfold Sink.flushPending
  split_ifs with hzero
  · rw [← hzero]
  · rfl

theorem Exposure.flushPending (h : Exposure s) : Exposure s.flushPending := by
  unfold Sink.flushPending
  split_ifs
  · exact h
  · exact { h with
      cleared := fun hc => ⟨(h.cleared hc).1, rfl⟩
      serving := fun hs => ⟨(h.serving hs).1, (h.serving hs).2.1, rfl⟩ }

/-- The chunk's completion exposes what was emitted, and it seals an inline chunk. -/
theorem chunkEnd_kept {words : List ℕ} {pending : ℕ} {b : PackedBatch} {j : Joint}
    (h : Exposure s) (hopen : s.winOpen = true) (hclassic : s.winSs = false)
    (hlen : words.length = s.submitRem) (hpending : s.curInline.isSome = true → 0 < pending)
    (hstep : runEnd { s.emit words with
      submitRem := s.submitRem - words.length, pendingLen := pending } b = some j) : Kept j := by
  obtain ⟨hmod, hfloor⟩ := chunk_end h.tracker
  rw [← hlen] at hmod hfloor
  have hold := h.classic hopen hclassic
  have hbase := (h.opened hopen).2.1
  have hpoint := exposurePoint_le hbase
  rw [runEnd, if_pos (by simp [hlen]), flushPending_eq] at hstep
  obtain ⟨s', hpub, rfl⟩ := Option.map_eq_some_iff.mp hstep
  obtain rfl := publishReady_classic hpub hclassic
  have hexposed : max s.log.exposed (s.nextSpan + words.length) =
      max (s.nextSpan + words.length) s.log.promised := by
    rw [hold]
    omega
  have hpoint' : exposurePoint s.winBase (s.nextSpan + words.length) = s.nextSpan + words.length := by
    unfold exposurePoint
    rw [hfloor]
    omega
  refine ⟨?_, hopen, hclassic, ?_⟩
  · exact
      { h with
        tracker := congrArg (chunk + ·) hmod
        fold_next := h.fold_next.trans (Nat.le_add_right _ _)
        fold_exposed := h.fold_exposed.trans (le_max_left _ _)
        cleared := fun hc => absurd (hopen.symm.trans (h.cleared hc).1) nofun
        closed := fun hc => absurd (hopen.symm.trans hc) nofun
        opened := fun ho => ⟨(h.opened ho).1, hbase.trans (Nat.le_add_right _ _), (h.opened ho).2.2⟩
        classic := fun _ _ => hexposed.trans (by rw [← hpoint']; rfl)
        serving := fun hs => absurd (hclassic.symm.trans hs) nofun }
  · intro hinl
    have hcases : (if pending = 0 then s.curInline else none).isSome = true := hinl
    cases hcur : s.curInline with
    | none => simp [hcur] at hcases
    | some slot =>
        have hpos := hpending (by rw [hcur]; rfl)
        rw [if_neg (Nat.ne_of_gt hpos)] at hcases
        exact nomatch hcases

/-- After a run that ends inside its chunk, an inline claim stays open. -/
theorem runEnd_kept {words : List ℕ} {pending n : ℕ} {b : PackedBatch} {j : Joint}
    (hn : words.length = n) (h : Exposure s) (hopen : s.winOpen = true) (hclassic : s.winSs = false)
    (hclaim : s.curInline.isSome = true → s.st.isInline (s.nextSpan / chunk) = true)
    (hne : 0 < n) (hle : n ≤ s.submitRem) (hpending : s.curInline.isSome = true → 0 < pending)
    (hstep : runEnd { s.emit words with
      submitRem := s.submitRem - n, pendingLen := pending } b = some j) : Kept j := by
  subst hn
  rcases hle.eq_or_lt with hlen | hlt
  · exact chunkEnd_kept h hopen hclassic hlen hpending hstep
  · have hleft : ¬ s.submitRem - words.length = 0 := by omega
    rw [runEnd, if_neg hleft] at hstep
    obtain rfl := Option.some_inj.mp hstep
    refine ⟨h.advance words pending hopen hlt, hopen, hclassic, fun hinl => ⟨?_, ?_⟩⟩
    · have htrack := h.tracker
      show s.submitRem - words.length ≠ chunk
      omega
    · show s.st.isInline ((s.nextSpan + words.length) / chunk) = true
      rw [floor_add h.tracker hlt]
      exact hclaim hinl

theorem fixStep_kept {r : Commit} {j : Joint} (h : Kept (s, .fix r))
    (hstep : fixStep c s r = some j) : Kept j := by
  obtain ⟨hs, hopen, hclassic, hr⟩ :
    Exposure s ∧ s.winOpen = true ∧ s.winSs = false ∧ Within s r := h
  have hfits := hr.fits
  have hrem := hr.rem
  have hwidth := hr.width
  have hpos := hr.nonempty
  unfold fixStep at hstep
  cases hbad : r.bad with
  | cons p bad =>
      simp only [hbad] at hstep
      split_ifs at hstep
      obtain rfl := Option.some_inj.mp hstep
      exact ⟨hs.setFixed, hopen, hclassic,
        { hr with lanes := fun q hq => hr.lanes q (by rw [hbad]; exact List.mem_cons_of_mem _ hq) }⟩
  | nil =>
      simp only [hbad] at hstep
      have hlen : (r.words.map (expect c r.delta)).length = r.words.length := List.length_map _
      have htake : ((r.words.take r.width).map (expect c r.delta)).length = r.width := by
        rw [List.length_map, List.length_take]
        omega
      split_ifs at hstep with hinl hmore hmore
      · exact openGroup_kept (r := { r with off := r.off + r.width }) hs hopen hclassic hr.claimed
          (fun hnone => by simp [hnone] at hinl) hmore hrem hstep
      · exact runEnd_kept hlen hs hopen hclassic hr.claimed hpos hrem (fun _ => by omega) hstep
      · have hadv := hs.advance ((r.words.take r.width).map (expect c r.delta)) s.pendingLen hopen
          (by omega)
        rw [htake] at hadv
        refine openGroup_kept (r := { r with words := r.words.drop r.width }) hadv hopen hclassic
          (fun hsome => absurd hsome hinl) (fun hnone => hr.off hnone) ?_ ?_ hstep
        · have hoff := hr.off (by simpa using hinl)
          simp only [List.length_drop]
          omega
        · simp only [List.length_drop]
          omega
      · exact runEnd_kept htake hs hopen hclassic hr.claimed hwidth (by omega)
          (fun hsome => absurd hsome hinl) hstep

/-! ## Claims, opens and closes -/

theorem tryClaimInline_eq {s' : Sink} (h : s.tryClaimInline c = some s') : s' = { s with
    inlineSeq := s.inlineSeq + 1, curInline := some (s.inlineSeq % c.assistSlots) } := by
  unfold Sink.tryClaimInline at h
  split_ifs at h
  exact (Option.some_inj.mp h).symm

theorem Exposure.claim {s' : Sink} (h : Exposure s) (hopen : s.winOpen = true)
    (hclassic : s.winSs = false) (hstep : s.tryClaimInline c = some s') : Exposure s' := by
  obtain rfl := tryClaimInline_eq hstep
  exact
    { h with
      inline_le := h.inline_le.trans (Nat.le_succ _)
      cleared := fun hc => absurd (hopen.symm.trans (h.cleared hc).1) nofun
      serving := fun hs => absurd (hclassic.symm.trans hs) nofun }

theorem isInline_markInline (st : RxdescState) (id : ℕ) : (st.markInline id).isInline id = true := by
  simp [RxdescState.markInline, RxdescState.isInline]

theorem claimed_run_kept {s' : Sink} {b : PackedBatch} {j : Joint} (h : Exposure s)
    (hopen : s.winOpen = true) (hclassic : s.winSs = false) (hne : b.words ≠ [])
    (hclaim : s.tryClaimInline c = some s')
    (hrun : openRun c { s' with st := s'.st.markInline (s'.nextSpan / chunk) } b = some j) :
    Kept j := by
  have hs' := h.claim hopen hclassic hclaim
  obtain rfl := tryClaimInline_eq hclaim
  refine openRun_kept ?_ ?_ ?_ ?_ hne hrun
  · exact { hs' with }
  · exact hopen
  · exact hclassic
  · exact fun _ => isInline_markInline _ _

theorem batchStep_kept {b : PackedBatch} {j : Joint} (h : Kept (s, .batch b))
    (hstep : batchStep c s b = some j) : Kept j := by
  obtain ⟨hs, hopen, hclassic, hclaimed⟩ :
    Exposure s ∧ s.winOpen = true ∧ s.winSs = false ∧ Claimed s := h
  unfold batchStep at hstep
  split_ifs at hstep with hnil hrem hforce hassist
  · obtain rfl := Option.some_inj.mp hstep
    exact ⟨hs, hclaimed⟩
  · obtain rfl := Option.some_inj.mp hstep
    exact ⟨hs, hopen, hclassic, hrem, hnil⟩
  · split at hstep
    next s' hclaim => exact claimed_run_kept hs hopen hclassic hnil hclaim hstep
    next => exact openRun_kept hs hopen hclassic (fun hinl => (hclaimed hinl).2) hnil hstep
  · exact openRun_kept hs hopen hclassic (fun hinl => (hclaimed hinl).2) hnil hstep
  · exact openRun_kept hs hopen hclassic (fun hinl => (hclaimed hinl).2) hnil hstep

theorem Exposure.activate (h : Exposure s) (hclosed : s.winOpen = false) (hclaimed : Claimed s) :
    Exposure s.activate ∧ s.activate.winOpen = false ∧ s.activate.marksCleared = true ∧
      Claimed s.activate ∧ s.activate.everOpened = s.everOpened := by
  unfold Sink.activate
  split_ifs with hcleared
  · exact ⟨h, hclosed, hcleared, hclaimed, rfl⟩
  · have hnone := (h.cleared (by simpa using hcleared)).2
    refine ⟨{ h with cleared := nofun }, hclosed, rfl, fun hinl => ?_, rfl⟩
    have hsome : s.curInline.isSome = true := hinl
    simp [hnone] at hsome

theorem openWindow_kept {k : Option PackedBatch} (h : Exposure s) (hclosed : s.winOpen = false)
    (hclaimed : Claimed s) : Kept (openWindow c s k) := by
  obtain ⟨hs, hopen, hmarks, hclaimed', hever⟩ := h.activate hclosed hclaimed
  refine ⟨hs, ?_⟩
  cases htor : c.toroidal && s.everOpened && decide (1 ≤ s.steadyEpoch) with
  | true =>
      simp only [openWindow, htor]
      simp only [Bool.and_eq_true] at htor
      exact ⟨hopen, hmarks, hclaimed', fun _ => hever.trans htor.1.2⟩
  | false =>
      simp only [openWindow, htor]
      exact ⟨hopen, hmarks, hclaimed'⟩

theorem exposurePoint_self (n : ℕ) : exposurePoint n n = n :=
  max_eq_left (Nat.mul_div_le n chunk)

theorem Exposure.enter {tor : Bool} {recSlot arrSlot : ℕ} {st : RxdescState} (h : Exposure s)
    (hclosed : s.winOpen = false) (hmarks : s.marksCleared = true)
    (htor : tor = true → s.everOpened = true)
    (hst : s.st.publishRecord recSlot (s.opening recSlot arrSlot).record = some st) :
    Exposure (s.enter st tor (s.opening recSlot arrSlot)) := by
  obtain rfl := publishRecord_cases hst
  obtain ⟨hclassic, hexposed, hcount⟩ := h.closed hclosed
  exact
    { h with
      cleared := fun hc => absurd (hmarks.symm.trans hc) nofun
      closed := fun hc => nomatch hc
      opened := fun _ => ⟨rfl, le_rfl, fun ht => hcount (htor ht)⟩
      classic := fun _ _ => hexposed.trans (by rw [← exposurePoint_self s.nextSpan]; rfl)
      serving := fun hs => absurd (hclassic.symm.trans hs) nofun }

/-- A self-serve window has no open inline chunk: a claimed chunk that the boundary cuts keeps
the window classic. -/
theorem selfServe_kept {s' : Sink} {tor : Bool} (h : Exposure s) (hopen : s.winOpen = true)
    (hclassic : s.winSs = false) (hbase : s.winBase = s.nextSpan) (hclaimed : Claimed s)
    (hstep : selfServe c s tor = some s') :
    Exposure s' ∧ s'.winOpen = true ∧ Claimed s' ∧
      (s'.submitRem ≠ chunk ∧ s'.st.isInline (s'.nextSpan / chunk) = true → s'.winSs = false) := by
  dsimp only [selfServe] at hstep
  split_ifs at hstep with hss hwide
  · obtain rfl := Option.some_inj.mp hstep
    simp only [Bool.and_eq_true, Bool.not_eq_true', Bool.and_eq_false_imp, decide_eq_true_eq] at hss
    have hstraddle := hss.1.2
    have hfront := h.classic hopen hclassic
    rw [hbase, exposurePoint_self] at hfront
    refine ⟨?_, hopen, hclaimed, fun hcut => ?_⟩
    · refine
        { h with
          fold_exposed := h.fold_exposed.trans (le_max_left _ _)
          closed := fun hc => absurd (hopen.symm.trans hc) nofun
          classic := fun _ hs => nomatch hs
          serving := fun _ => ⟨?_, le_max_right s.log.promised (s.nextSpan + s.winCount0), ?_⟩ }
      · show max s.log.exposed (s.nextSpan + s.winCount0) =
          max s.winBase (max s.log.promised (s.nextSpan + s.winCount0))
        rw [hfront, hbase, max_assoc]
      · show s.curInline = none
        cases hcur : s.curInline with
        | none => rfl
        | some slot =>
            have hcut := hclaimed (by rw [hcur]; rfl)
            exact absurd (hstraddle hcut.1) (by simp [hcut.2])
    · have hmark : s.st.isInline (s.nextSpan / chunk) = true := hcut.2
      exact absurd (hstraddle hcut.1) (by simp [hmark])
  · obtain rfl := Option.some_inj.mp hstep
    exact ⟨{ h with
      closed := fun hc => absurd (hopen.symm.trans hc) nofun
      classic := fun ho _ => h.classic ho hclassic
      serving := fun hs => nomatch hs }, hopen, hclaimed, fun _ => rfl⟩

theorem watermarkStep_kept {tor : Bool} {recSlot arrSlot : ℕ} {k : Option PackedBatch} {j : Joint}
    (h : Kept (s, .watermark tor recSlot arrSlot k))
    (hstep : watermarkStep c s tor recSlot arrSlot k = some j) : Kept j := by
  obtain ⟨hs, hclosed, hmarks, hclaimed, htor⟩ : Exposure s ∧ s.winOpen = false ∧
    s.marksCleared = true ∧ Claimed s ∧ (tor = true → s.everOpened = true) := h
  dsimp only [watermarkStep] at hstep
  split_ifs at hstep
  obtain ⟨st, hst, hstep⟩ := Option.bind_eq_some_iff.mp hstep
  obtain ⟨s', hserve, hstep⟩ := Option.bind_eq_some_iff.mp hstep
  obtain rfl := Option.some_inj.mp hstep
  have henter := hs.enter hclosed hmarks htor hst
  have hclaimed' : Claimed (s.enter st tor (s.opening recSlot arrSlot)) := by
    obtain rfl := publishRecord_cases hst
    exact hclaimed
  obtain ⟨hs', hopen', hclaimed'', hcut⟩ :=
    selfServe_kept henter rfl (hs.closed hclosed).1 rfl hclaimed' hserve
  refine ⟨hs', ?_⟩
  dsimp only
  split_ifs with hstraddle
  · exact ⟨hopen', hcut hstraddle, hstraddle⟩
  · cases k with
    | none => exact hclaimed''
    | some b => exact ⟨hopen', hclaimed''⟩

/-- The store at a window's close exposes all that was emitted. -/
theorem Exposure.frontier (h : Exposure s) :
    max s.log.exposed s.frontier = max s.nextSpan s.log.promised := by
  unfold Sink.frontier
  cases hopen : s.winOpen with
  | false =>
      obtain ⟨hclassic, hexposed, -⟩ := h.closed hopen
      rw [if_neg (by simp [hclassic]), hexposed]
      omega
  | true =>
      have hbase := (h.opened hopen).2.1
      cases hss : s.winSs with
      | false =>
          have hpoint := exposurePoint_le hbase
          rw [if_neg nofun, h.classic hopen hss]
          omega
      | true =>
          obtain ⟨hexposed, hpre, -⟩ := h.serving hss
          rw [if_pos rfl, hexposed]
          omega

theorem Claimed.flushPending (h : Claimed s) : Claimed s.flushPending := by
  unfold Sink.flushPending
  split_ifs
  · exact h
  · exact nofun

theorem Exposure.retire {s' : Sink} (h : Exposure s) (hclaimed : Claimed s)
    (hstep : s.retire = some s') : Exposure s' ∧ Claimed s' := by
  obtain ⟨t, hpub, rfl⟩ := Option.map_eq_some_iff.mp hstep
  obtain rfl := publishReady_eq hpub
  have hflush := h.flushPending
  have hfront := hflush.frontier
  have hclaimed' := hclaimed.flushPending
  generalize s.flushPending = u at hflush hfront hclaimed'
  have hfold : u.foldPos ≤ max u.log.exposed u.frontier :=
    hflush.fold_exposed.trans (le_max_left _ _)
  unfold closeWindow
  split_ifs with hopen
  · have hcount : min (u.nextSpan - u.winBase) u.st.cap ≤ u.nextSpan := by omega
    exact ⟨{ hflush with
      fold_exposed := hfold
      cleared := fun hc => ⟨rfl, (hflush.cleared hc).2⟩
      closed := fun _ => ⟨rfl, hfront, fun _ => hcount⟩
      opened := fun ho => nomatch ho
      classic := fun ho => nomatch ho
      serving := fun hs => nomatch hs }, hclaimed'⟩
  · have hclosed : u.winOpen = false := by simpa using hopen
    exact ⟨{ hflush with
      fold_exposed := hfold
      closed := fun _ => ⟨rfl, hfront, (hflush.closed hclosed).2.2⟩
      classic := fun ho => absurd (hclosed.symm.trans ho) nofun
      serving := fun hs => nomatch hs }, hclaimed'⟩

theorem Exposure.fold {pos seq : ℕ} {s' : Sink} (h : Exposure s)
    (hstep : foldStep s pos seq = some s') : Exposure s' := by
  unfold foldStep at hstep
  split_ifs at hstep with hmove
  obtain rfl := Option.some_inj.mp hstep
  exact { h with fold_next := hmove.2.1, fold_exposed := hmove.2.2.1, inline_le := hmove.2.2.2.2 }

theorem Staged.fold {ctl : Ctl} {pos seq : ℕ} {s' : Sink} (h : Staged s ctl)
    (hstep : foldStep s pos seq = some s') : Staged s' ctl := by
  unfold foldStep at hstep
  split_ifs at hstep
  obtain rfl := Option.some_inj.mp hstep
  cases ctl with
  | fix r => exact ⟨h.1, h.2.1, { h.2.2 with }⟩
  | _ => exact h

theorem core_kept {ctl : Ctl} {j : Joint} (h : Kept (s, ctl)) (hstep : core c s ctl = some j) :
    Kept j := by
  obtain ⟨hs, hstage⟩ : Exposure s ∧ Staged s ctl := h
  cases ctl with
  | idle => cases hstep
  | reuse =>
      dsimp only [core, reuseStep] at hstep
      split_ifs at hstep
      · exact Option.some_inj.mp hstep ▸ ⟨hs, hstage.1, hstage.2.1, hstage.2.2, fun h => by cases h⟩
      · exact Option.some_inj.mp hstep ▸ ⟨hs, hstage⟩
  | warm recSlot arrSlot copied k =>
      obtain rfl := Option.some_inj.mp hstep
      rcases lt_or_ge copied s.st.lastWindowCount with hmore | hdone
      · rw [warmStep, if_pos hmore]
        exact ⟨{ hs with }, hstage⟩
      · rw [warmStep, if_neg (Nat.not_lt.mpr hdone)]
        exact ⟨hs, hstage.1, hstage.2.1, hstage.2.2, fun h => by cases h⟩
  | watermark => exact watermarkStep_kept ⟨hs, hstage⟩ hstep
  | straddle k =>
      obtain ⟨hopen, hclassic, hrem, hmark⟩ := hstage
      obtain ⟨s', hclaim, rfl⟩ := Option.map_eq_some_iff.mp hstep
      have hs' := hs.claim hopen hclassic hclaim
      obtain rfl := tryClaimInline_eq hclaim
      refine ⟨hs', ?_⟩
      cases k with
      | none => exact fun _ => ⟨hrem, hmark⟩
      | some b => exact ⟨hopen, fun _ => ⟨hrem, hmark⟩⟩
  | pace b =>
      dsimp only [core, paceStep] at hstep
      split_ifs at hstep with hpace hserve
      · obtain rfl := Option.some_inj.mp hstep
        have hlen : (b.words.map (expect c b.delta)).length = b.words.length := List.length_map _
        have hnext : s.nextSpan ≤ s.nextSpan + (b.words.map (expect c b.delta)).length :=
          Nat.le_add_right _ _
        refine ⟨{ hs with
          tracker := ?_
          fold_next := hs.fold_next.trans hnext
          closed := fun hc => by cases hstage.1.symm.trans hc
          opened := fun ho => ⟨(hs.opened ho).1, (hs.opened ho).2.1.trans hnext, (hs.opened ho).2.2⟩
          classic := fun _ hss => by cases hserve.1.symm.trans hss }, fun hinl => ?_⟩
        · show Sink.skipRem s.submitRem b.words.length +
            (s.nextSpan + (b.words.map (expect c b.delta)).length) % chunk = chunk
          rw [hlen]
          exact tracker_skipRem hs.tracker
        · have hsome : s.curInline.isSome = true := hinl
          simp [hserve.2] at hsome
      · obtain rfl := Option.some_inj.mp hstep
        refine ⟨hs, hstage.1, ?_, hstage.2⟩
        cases hss : s.winSs with
        | false => rfl
        | true => exact absurd ⟨hss, (hs.serving hss).2.2⟩ hserve
  | batch b => exact batchStep_kept ⟨hs, hstage⟩ hstep
  | claim b =>
      obtain ⟨s', hclaim, hrun⟩ := Option.bind_eq_some_iff.mp hstep
      exact claimed_run_kept hs hstage.1 hstage.2.1 hstage.2.2.2 hclaim hrun
  | fix r => exact fixStep_kept ⟨hs, hstage⟩ hstep
  | drain =>
      dsimp only [core] at hstep
      split_ifs at hstep
      obtain rfl := Option.some_inj.mp hstep
      exact ⟨hs, hstage⟩

theorem beginPass_kept {j : Joint} (h : Kept (s, .idle)) (hstep : beginPass c s = some j) :
    Kept j := by
  dsimp only [beginPass] at hstep
  have hs : Exposure { s with passStartSpan := some s.nextSpan, passOpen := true } := { h.1 with }
  split_ifs at hstep with hpass hopen
  · exact Option.some_inj.mp hstep ▸ ⟨hs, h.2⟩
  · exact Option.some_inj.mp hstep ▸ openWindow_kept hs (by simpa using hopen) h.2

theorem submit_kept {b : PackedBatch} (h : Kept (s, .idle)) : Kept (submit c s b) := by
  unfold submit
  split_ifs with hnil hopen
  · exact h
  · exact ⟨h.1, hopen, h.2⟩
  · exact openWindow_kept h.1 (by simpa using hopen) h.2

theorem step_kept {i : Label} {j j' : Joint} (h : Kept j) (hstep : step c j i = some j') :
    Kept j' := by
  obtain ⟨s, ctl⟩ := j
  cases i with
  | fold pos seq =>
      obtain ⟨s', hfold, rfl⟩ := Option.map_eq_some_iff.mp hstep
      exact ⟨h.1.fold hfold, h.2.fold hfold⟩
  | core => exact core_kept h hstep
  | beginPass =>
      cases ctl with
      | idle => exact beginPass_kept h hstep
      | _ => exact nomatch hstep
  | submit b =>
      cases ctl with
      | idle => exact Option.some_inj.mp hstep ▸ submit_kept h
      | _ => exact nomatch hstep
  | endPass =>
      cases ctl with
      | idle =>
          dsimp only [step, endPass] at hstep
          split_ifs at hstep
          obtain ⟨s', hretire, rfl⟩ := Option.map_eq_some_iff.mp hstep
          have hs : Exposure { s with passOpen := false } := { h.1 with }
          exact hs.retire h.2 hretire
      | _ => exact nomatch hstep
  | finish =>
      cases ctl with
      | idle =>
          obtain ⟨s', hretire, rfl⟩ := Option.map_eq_some_iff.mp hstep
          exact h.1.retire h.2 hretire
      | _ => exact nomatch hstep

theorem Fresh.kept (h : Fresh s) : Kept (s, .idle) := by
  refine ⟨?_, fun hinl => by simp [h.curInline] at hinl⟩
  constructor
  case tracker => rw [h.submitRem, h.nextSpan]; rfl
  case fold_next => rw [h.foldPos]; exact Nat.zero_le _
  case fold_exposed => rw [h.foldPos]; exact Nat.zero_le _
  case inline_le => rw [h.inlineFoldSeq]; exact Nat.zero_le _
  case cleared => exact fun _ => ⟨h.winOpen, h.curInline⟩
  case closed => exact fun _ => ⟨h.winSs, by rw [h.log, h.nextSpan]; rfl,
    fun he => absurd (h.everOpened.symm.trans he) nofun⟩
  case opened => exact fun ho => absurd (h.winOpen.symm.trans ho) nofun
  case classic => exact fun ho => absurd (h.winOpen.symm.trans ho) nofun
  case serving => exact fun hs => absurd (h.winSs.symm.trans hs) nofun

theorem Reached.kept {j : Joint} (h : Reached c j) : Kept j := by
  obtain ⟨s, hfresh, hreach⟩ := h
  exact Transition.invariant (fun _ _ _ hk hstep => step_kept hk hstep) hfresh.kept hreach

/-! ## What the guard waits for -/

/-- Progress of the fold lets the guard at an index through. -/
def Releasable (s : Sink) (idx : ℕ) : Prop :=
  ∃ pos seq s', foldStep s pos seq = some s' ∧ s.need idx ≤ s'.foldPos

/-- The divergent span lies at most the previous window's length behind the last exposure
within its window, or a self-serve open has exposed what it waits for ahead of its spans and
these have been emitted. -/
def Shielded (s : Sink) (idx : ℕ) : Prop :=
  s.winBase + idx + 1 ≤ s.winCount0 + exposurePoint s.winBase (s.winBase + idx) ∨
    (s.need idx ≤ s.log.promised ∧ s.need idx ≤ s.nextSpan)

theorem releasable_iff {idx : ℕ} (h : Exposure s) (hspin : s.foldPos < s.need idx) :
    Releasable s idx ↔ s.need idx ≤ s.nextSpan ∧ s.need idx ≤ s.log.exposed := by
  constructor
  · rintro ⟨pos, seq, s', hfold, hneed⟩
    unfold foldStep at hfold
    split_ifs at hfold with hmove
    obtain rfl := Option.some_inj.mp hfold
    exact ⟨hneed.trans hmove.2.1, hneed.trans hmove.2.2.1⟩
  · rintro ⟨hnext, hexposed⟩
    refine ⟨s.need idx, s.inlineFoldSeq, { s with foldPos := s.need idx }, ?_, le_rfl⟩
    rw [foldStep, if_pos ⟨hspin.le, hnext, hexposed, le_rfl, h.inline_le⟩]

/-- Whenever the guard spins, the spans below the position it waits for are exposed, and
the fold can let it return, exactly if the divergent span is shielded. -/
theorem guard_waits_exposed_iff {r : Commit} {idx w : ℕ} {bad : List (ℕ × ℕ)}
    (h : Reached c (s, .fix r)) (hlane : r.bad = (idx, w) :: bad) (htor : s.torWin = true)
    (hspin : s.foldPos < s.need idx) :
    ((∀ gid, gid < s.need idx → gid < s.log.exposed) ∧ Releasable s idx) ↔ Shielded s idx := by
  obtain ⟨hs, hopen, hclassic, hr⟩ :
    Exposure s ∧ s.winOpen = true ∧ s.winSs = false ∧ Within s r := h.kept
  obtain ⟨-, hbase, hcount⟩ := hs.opened hopen
  have hlanes := hr.lanes (idx, w) (by simp [hlane])
  have hrem := hr.rem
  have hfits := hr.fits
  -- the lane lies in the chunk of the cursor
  have hfloor : (s.winBase + idx) / chunk = s.nextSpan / chunk := by
    have hpos : s.winBase + idx = s.nextSpan + (s.winBase + idx - s.nextSpan) := by omega
    rw [hpos]
    exact floor_add hs.tracker (by omega)
  have hpoint : exposurePoint s.winBase (s.winBase + idx) = exposurePoint s.winBase s.nextSpan := by
    unfold exposurePoint
    rw [hfloor]
  have hexposed := hs.classic hopen hclassic
  have hbelow := exposurePoint_le hbase
  have hprev := hcount htor
  have hall : (∀ gid, gid < s.need idx → gid < s.log.exposed) ↔ s.need idx ≤ s.log.exposed := by
    constructor
    · intro hlt
      have := hlt (s.need idx - 1) (by unfold Sink.need; omega)
      unfold Sink.need at this ⊢
      omega
    · exact fun hle gid hlt => hlt.trans_le hle
  rw [hall, releasable_iff hs hspin, Shielded, hpoint, hexposed]
  unfold Sink.need
  omega

/-- Two equal windows of one span arm the toroidal regime. -/
def armed : List Label :=
  passLabels 3 [7] 5 ++ [.endPass] ++ passLabels 4 [7] 4 ++ [.endPass]

/-- The core spins in the guard at an index. -/
def guarding (idx w : ℕ) (j : Joint) : Bool :=
  match j.2 with
  | .fix r => decide (r.bad = [(idx, w)] ∧ j.1.torWin = true ∧ j.1.foldPos < j.1.need idx)
  | _ => false

theorem exists_guarding (labels : List Label) (p : Sink → Bool) {idx w cap : ℕ}
    (h : (Transition.run (step c) (.new cap, .idle) labels).any
      (fun j => guarding idx w j && p j.1) = true) :
    ∃ s r, Reached c (s, .fix r) ∧ r.bad = [(idx, w)] ∧ s.torWin = true ∧
      s.foldPos < s.need idx ∧ p s = true := by
  obtain ⟨⟨s, ctl⟩, hrun, hat⟩ := (Option.any_eq_true _ _).mp h
  obtain ⟨hguard, hp⟩ := Bool.and_eq_true_iff.mp hat
  cases ctl with
  | fix r =>
      obtain ⟨hbad, htor, hspin⟩ := of_decide_eq_true hguard
      exact ⟨s, r, .of_run hrun, hbad, htor, hspin, hp⟩
  | _ => exact nomatch hguard

/-- A third window of one span that diverges. -/
theorem guard_waits_exposed_iff_short : ∃ s r, Reached toroidalConfig (s, .fix r) ∧
    r.bad = [(0, 9)] ∧ s.torWin = true ∧ s.foldPos < s.need 0 ∧
    (((∀ gid, gid < s.need 0 → gid < s.log.exposed) ∧ Releasable s 0) ↔ Shielded s 0) := by
  have hrun : (Transition.run (step toroidalConfig) (.new 8, .idle)
      (armed ++ passLabels 1 [9] 2)).any (fun j => guarding 0 9 j && true) = true := by
    decide +kernel
  obtain ⟨s, r, hreach, hbad, htor, hspin, -⟩ := exists_guarding _ (fun _ => true) hrun
  exact ⟨s, r, hreach, hbad, htor, hspin, guard_waits_exposed_iff hreach hbad htor hspin⟩

/-- A third window of two spans, of which the second diverges: the guard waits for a span of
its own window that no ready store has exposed. -/
theorem guard_waits_unexposed : ∃ s r, Reached toroidalConfig (s, .fix r) ∧
    r.bad = [(1, 9)] ∧ s.torWin = true ∧ s.foldPos < s.need 1 ∧
    ¬ (∀ gid, gid < s.need 1 → gid < s.log.exposed) ∧ ¬ Releasable s 1 := by
  have hrun : (Transition.run (step toroidalConfig) (.new 8, .idle)
      (armed ++ passLabels 1 [7, 9] 3)).any
        (fun j => guarding 1 9 j && decide (j.1.log.exposed < j.1.need 1)) = true := by
    decide +kernel
  obtain ⟨s, r, hreach, hbad, htor, hspin, hexposed⟩ :=
    exists_guarding _ (fun s => decide (s.log.exposed < s.need 1)) hrun
  have hlt := of_decide_eq_true hexposed
  refine ⟨s, r, hreach, hbad, htor, hspin, fun hall => ?_, fun hrel => ?_⟩
  · exact Nat.lt_irrefl _ (hall _ hlt)
  · exact absurd ((releasable_iff hreach.kept.1 hspin).mp hrel).2 (Nat.not_le.mpr hlt)

end HftProj.Testkit.RxSubmit
