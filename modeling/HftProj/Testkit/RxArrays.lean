import HftProj.Testkit.RxSubmit

/-!
# Rows under their readers

A worker reads a span's word between the ready store that exposes the span and the fold
that passes it. The rows are written by the warm copy and by fixes only: a rotating open
waits until the row's last window is folded, and a toroidal fix until the previous
window's span at the same index is.
-/

namespace HftProj.Testkit.RxSubmit

open HftProj.Lib

variable {c : Config} {s : Sink}

/-! ## Owners -/

namespace Log

theorem owner_cons_of_le {l : Log} {w : Opened} {rest : List Opened} {gid : ℕ}
    (hopens : l.opens = w :: rest) (h : w.base ≤ gid) : l.owner gid = some w := by
  simp [owner, hopens, h]

theorem owner_push {l : Log} {w : Opened} {gid : ℕ} (h : gid < w.base) :
    ({ l with opens := w :: l.opens } : Log).owner gid = l.owner gid := by
  simp [owner, Nat.not_le.mpr h]

theorem owner_base_le {l : Log} {w : Opened} {gid : ℕ} (h : l.owner gid = some w) :
    w.base ≤ gid := by
  simpa using List.find?_some h

end Log

/-- A span's word stands in its window's row, and the window's record in its slot. -/
def Shown (s : Sink) (gid : ℕ) (w : Opened) : Prop :=
  s.log.spans[gid]? = some (s.st.arrays w.arrSlot (gid - w.base)) ∧
    s.st.records w.recSlot = some w.record

/-- The stamps of a window's row and record slot lie past one of its spans. -/
def Ended (s : Sink) (gid : ℕ) (w : Opened) : Prop :=
  (∃ e, s.slotEnd w.arrSlot = some e ∧ gid < e) ∧ ∃ e, s.recEnd w.recSlot = some e ∧ gid < e

/-- Where the last closed window ends. -/
def sealedTo (s : Sink) : ℕ := if s.winOpen then s.winBase else s.nextSpan

/-- The open window is the newest one, and its record is published. -/
def Current (s : Sink) : Prop :=
  s.everOpened = true ∧ s.winBase ≤ s.nextSpan ∧ s.nextSpan - s.winBase ≤ s.st.cap ∧
    ∃ w rest, s.log.opens = w :: rest ∧ w.base = s.winBase ∧ w.arrSlot = s.winSlot ∧
      w.recSlot = s.winRec ∧ s.st.records s.winRec = some w.record

/-- The spans of a window of `count` spans that ends at `stop` are owned by one window. -/
def OneWindow (s : Sink) (count stop : ℕ) : Prop :=
  count ≤ stop ∧ ∀ gid, stop - count ≤ gid → gid < stop →
    ∃ w, s.log.owner gid = some w ∧ w.base = stop - count

structure Sound (s : Sink) : Prop where
  classic : s.winSs = false
  rem : 0 < s.submitRem
  fold_le : s.foldPos ≤ s.nextSpan
  ready_le : s.st.ready ≤ s.nextSpan
  exposed_le : s.log.exposed ≤ s.nextSpan
  spans : s.log.spans.length = s.nextSpan
  owned : ∀ gid, gid < s.nextSpan → ∃ w, s.log.owner gid = some w
  shown : ∀ gid w, s.foldPos ≤ gid → gid < s.nextSpan → s.log.owner gid = some w → Shown s gid w
  ended : ∀ gid w, gid < sealedTo s → s.log.owner gid = some w → Ended s gid w
  unopened : s.everOpened = false → s.nextSpan = 0
  current : s.winOpen = true → Current s
  rotating : s.winOpen = true → s.torWin = false → ∀ gid w, s.foldPos ≤ gid → gid < s.winBase →
    s.log.owner gid = some w → w.arrSlot ≠ s.winSlot
  toroidal : s.winOpen = true → s.torWin = true → OneWindow s s.winCount0 s.winBase
  closed : s.winOpen = false → s.everOpened = true → OneWindow s s.st.lastWindowCount s.nextSpan

/-! ## Writes to a row -/

/-- No span that the fold has still to pass is read at a place of the rows. -/
def Unread (s : Sink) (slot idx : ℕ) : Prop :=
  ∀ gid w, s.foldPos ≤ gid → gid < s.nextSpan → s.log.owner gid = some w →
    w.arrSlot ≠ slot ∨ gid - w.base ≠ idx

theorem arrays_setArr_of_ne {st : RxdescState} {slot idx slot' idx' w : ℕ}
    (h : slot' ≠ slot ∨ idx' ≠ idx) : (st.setArr slot idx w).arrays slot' idx' = st.arrays slot' idx' := by
  rcases eq_or_ne slot' slot with rfl | hne
  · have hidx : idx' ≠ idx := h.resolve_left (fun hn => hn rfl)
    simp [RxdescState.setArr, hidx]
  · simp [RxdescState.setArr, hne]

@[simp] theorem arrays_setArr_self {st : RxdescState} {slot idx w : ℕ} :
    (st.setArr slot idx w).arrays slot idx = w := by
  simp [RxdescState.setArr]

theorem Shown.setArr {gid slot idx v : ℕ} {w : Opened} (h : Shown s gid w)
    (hne : w.arrSlot ≠ slot ∨ gid - w.base ≠ idx) :
    Shown { s with st := s.st.setArr slot idx v } gid w :=
  ⟨h.1.trans (congrArg some (arrays_setArr_of_ne hne).symm), h.2⟩

theorem Sound.setArr {slot idx v : ℕ} (h : Sound s) (hun : Unread s slot idx) :
    Sound { s with st := s.st.setArr slot idx v } where
  __ := h
  shown gid w hfold hnext how := (h.shown gid w hfold hnext how).setArr (hun gid w hfold hnext how)

/-- A row whose stamp the fold has passed is read by nobody, while no window is open. -/
theorem Sound.unread_of_passed {slot : ℕ} (h : Sound s) (hclosed : s.winOpen = false)
    (hpassed : passed s (s.slotEnd slot) = true) {gid : ℕ} {w : Opened} (hfold : s.foldPos ≤ gid)
    (hnext : gid < s.nextSpan) (how : s.log.owner gid = some w) : w.arrSlot ≠ slot := by
  rintro rfl
  obtain ⟨e, hend, hlt⟩ := (h.ended gid w (by simpa [sealedTo, hclosed] using hnext) how).1
  have hle : e ≤ s.foldPos := by simpa [passed, hend] using hpassed
  omega

theorem Sound.owner_current (h : Sound s) (hopen : s.winOpen = true) {gid : ℕ}
    (hgid : s.winBase ≤ gid) : ∃ w, s.log.owner gid = some w ∧ w.base = s.winBase ∧
      w.arrSlot = s.winSlot ∧ w.recSlot = s.winRec ∧ s.st.records s.winRec = some w.record := by
  obtain ⟨w, rest, hopens, hbase, hrow, hrec, hpub⟩ := (h.current hopen).2.2.2
  exact ⟨w, Log.owner_cons_of_le hopens (hbase.trans_le hgid), hbase, hrow, hrec, hpub⟩

/-- Behind the guard, no worker is left at the place that a fix writes. -/
theorem Sound.unread_of_guard (h : Sound s) (hopen : s.winOpen = true) {idx : ℕ}
    (hidx : s.nextSpan - s.winBase ≤ idx) (hguard : ¬ (s.torWin = true ∧ s.foldPos < s.need idx)) :
    Unread s s.winSlot idx := by
  intro gid w hfold hnext how
  have hbase := (h.current hopen).2.1
  rcases le_or_gt s.winBase gid with hin | hbefore
  · obtain ⟨w', how', hw, -⟩ := h.owner_current hopen hin
    obtain rfl : w' = w := by simpa [how'] using how
    right
    omega
  · cases htor : s.torWin with
    | false => exact Or.inl (h.rotating hopen htor gid w hfold hbefore how)
    | true =>
        have hneed : s.need idx ≤ s.foldPos := by simpa [htor] using hguard
        obtain ⟨hcount, hone⟩ := h.toroidal hopen htor
        obtain ⟨w', how', hw⟩ := hone gid (by unfold Sink.need at hneed; omega) hbefore
        obtain rfl : w' = w := by simpa [how'] using how
        right
        unfold Sink.need at hneed
        omega

/-! ## Emission -/

/-- Some words stand in the open row from the cursor on. -/
def Standing (s : Sink) (words : List ℕ) : Prop :=
  ∀ j, (hj : j < words.length) → s.st.arrays s.winSlot (s.nextSpan - s.winBase + j) = words[j]

theorem Sound.emit {words : List ℕ} (h : Sound s) (hopen : s.winOpen = true)
    (hwords : Standing s words) (hcap : s.nextSpan - s.winBase + words.length ≤ s.st.cap) :
    Sound (s.emit words) := by
  have hcur := h.current hopen
  have hnew : ∀ gid, s.nextSpan ≤ gid → gid < s.nextSpan + words.length →
      ∃ w, s.log.owner gid = some w ∧ Shown (s.emit words) gid w := by
    intro gid hle hlt
    obtain ⟨w, how, hbase, hrow, hrec, hpub⟩ := h.owner_current hopen (hcur.2.1.trans hle)
    refine ⟨w, how, ⟨?_, by rw [hrec]; exact hpub⟩⟩
    have hj : gid - s.nextSpan < words.length := by omega
    have hplace : gid - w.base = s.nextSpan - s.winBase + (gid - s.nextSpan) := by
      have := hcur.2.1
      omega
    calc (s.log.spans ++ words)[gid]? = words[gid - s.nextSpan]? := by
          rw [List.getElem?_append_right (by rw [h.spans]; exact hle), h.spans]
      _ = some words[gid - s.nextSpan] := List.getElem?_eq_getElem hj
      _ = some (s.st.arrays w.arrSlot (gid - w.base)) := by rw [hrow, hplace, hwords _ hj]
  have hold : ∀ gid w, gid < s.nextSpan → Shown s gid w → Shown (s.emit words) gid w :=
    fun gid w hlt hs => ⟨(List.getElem?_append_left (by rwa [h.spans])).trans hs.1, hs.2⟩
  exact
    { h with
      fold_le := h.fold_le.trans (Nat.le_add_right _ _)
      ready_le := h.ready_le.trans (Nat.le_add_right _ _)
      exposed_le := h.exposed_le.trans (Nat.le_add_right _ _)
      spans := by simp [Sink.emit, h.spans]
      owned := fun gid hlt => by
        rcases lt_or_ge gid s.nextSpan with hin | hge
        · exact h.owned gid hin
        · obtain ⟨w, how, -⟩ := hnew gid hge hlt
          exact ⟨w, how⟩
      shown := fun gid w hfold hlt how => by
        rcases lt_or_ge gid s.nextSpan with hin | hge
        · exact hold gid w hin (h.shown gid w hfold hin how)
        · obtain ⟨w', how', hshown⟩ := hnew gid hge hlt
          obtain rfl : w' = w := Option.some_inj.mp (how'.symm.trans how)
          exact hshown
      ended := fun gid w hlt how =>
        have hsealed : sealedTo (s.emit words) = sealedTo s := by simp [sealedTo, Sink.emit, hopen]
        h.ended gid w (hsealed ▸ hlt) how
      unopened := fun hever => absurd hcur.1 (by simpa [Sink.emit] using hever)
      current := fun _ => ⟨hcur.1, hcur.2.1.trans (Nat.le_add_right _ _),
        by have := hcur.2.1; simp only [Sink.emit]; omega, hcur.2.2.2⟩
      closed := fun hclosed => by simp [Sink.emit, hopen] at hclosed }

/-! ## The submitting core -/

def Commit.expected (c : Config) (r : Commit) : List ℕ := r.words.map (expect c r.delta)

/-- A run under check: the lanes still to be fixed are lanes of the run, and every other lane
up to the group's end stands in the row. -/
structure Checked (c : Config) (s : Sink) (r : Commit) : Prop where
  off : s.curInline = none → r.off = 0
  fits : r.off + r.width ≤ r.words.length
  rem : r.words.length ≤ s.submitRem
  cap : s.nextSpan - s.winBase + (r.off + r.width) ≤ s.st.cap
  lanes : ∀ p ∈ r.bad, ∃ j, j < r.off + r.width ∧ p.1 = s.nextSpan - s.winBase + j ∧
    (r.expected c)[j]? = some p.2
  settled : ∀ j w, j < r.off + r.width → (r.expected c)[j]? = some w →
    (s.nextSpan - s.winBase + j, w) ∈ r.bad ∨
      s.st.arrays s.winSlot (s.nextSpan - s.winBase + j) = w

/-- What holds of the sink at each place of the core. -/
def Placed (c : Config) (s : Sink) : Ctl → Prop
  | .idle | .drain => True
  | .reuse _ _ _ => s.winOpen = false
  | .warm _ arrSlot _ _ => s.winOpen = false ∧ passed s (s.slotEnd arrSlot) = true
  | .watermark tor _ arrSlot _ => s.winOpen = false ∧
      if tor then s.everOpened = true else passed s (s.slotEnd arrSlot) = true
  | .straddle _ | .pace _ | .batch _ => s.winOpen = true
  | .claim b => s.winOpen = true ∧ b.words ≠ []
  | .fix r => s.winOpen = true ∧ Checked c s r

def Good (c : Config) (j : Joint) : Prop := Sound j.1 ∧ Placed c j.1 j.2

theorem groupWidth_le (inline : Bool) {left : ℕ} (h : 0 < left) :
    groupWidth inline left ≤ left := by
  unfold groupWidth
  split_ifs with h16 h8
  · exact h16.2
  · exact h8
  · exact h

theorem mem_divergent {slot idx delta : ℕ} {group : List ℕ} {p : ℕ × ℕ} :
    p ∈ divergent c s slot idx delta group ↔ ∃ g, ∃ h : g < group.length,
      p = (idx + g, expect c delta group[g]) ∧
        s.st.arrays slot (idx + g) ≠ expect c delta group[g] := by
  simp only [divergent, List.mem_filterMap]
  constructor
  · rintro ⟨q, hq, hp⟩
    obtain ⟨hle, hlt, hw⟩ := List.mem_zipIdx hq
    have hplace : idx + (q.2 - idx) = q.2 := by omega
    split_ifs at hp with hne
    refine ⟨q.2 - idx, by omega, ?_, ?_⟩
    · rw [hplace, ← hw]
      exact (Option.some_inj.mp hp).symm
    · rw [hplace, ← hw]
      exact hne
  · rintro ⟨g, hg, rfl, hne⟩
    refine ⟨(group[g], idx + g), ?_, by simp [hne]⟩
    rw [List.mem_iff_getElem?]
    exact ⟨g, by simp [hg]⟩

/-- The check of the next group, behind lanes that stand already. -/
theorem openGroup_good {r : Commit} {j : Joint} (h : Sound s) (hopen : s.winOpen = true)
    (hoff : s.curInline = none → r.off = 0) (hleft : r.off < r.words.length)
    (hrem : r.words.length ≤ s.submitRem)
    (hset : ∀ i w, i < r.off → (r.expected c)[i]? = some w →
      s.st.arrays s.winSlot (s.nextSpan - s.winBase + i) = w)
    (hstep : openGroup c s r = some j) : Good c j := by
  dsimp only [openGroup] at hstep
  split_ifs at hstep with hfits
  obtain rfl := Option.some_inj.mp hstep
  have hwidth := groupWidth_le s.curInline.isSome (Nat.sub_pos_of_lt hleft)
  refine ⟨h, hopen, ?_⟩
  set width := groupWidth s.curInline.isSome (r.words.length - r.off) with hdef
  have hgroup : ((r.words.drop r.off).take width).length = width := by simp; omega
  constructor
  case off => exact hoff
  case fits => show r.off + width ≤ r.words.length; omega
  case rem => exact hrem
  case cap => simpa [Nat.add_assoc] using hfits.1
  case lanes =>
    intro p hp
    obtain ⟨g, hg, rfl, -⟩ := mem_divergent.mp hp
    have hlt : r.off + g < r.words.length := by omega
    exact ⟨r.off + g, by show r.off + g < r.off + width; omega, Nat.add_assoc _ _ _,
      by simp [Commit.expected, hlt]⟩
  case settled =>
    intro i w hi hw
    have hw' : (r.expected c)[i]? = some w := hw
    rcases lt_or_ge i r.off with hlt | hge
    · exact Or.inr (hset i w hlt hw')
    · obtain ⟨g, rfl⟩ := Nat.exists_eq_add_of_le hge
      have hg : g < width := Nat.lt_of_add_lt_add_left hi
      have hlt : r.off + g < r.words.length := by omega
      obtain rfl : expect c r.delta r.words[r.off + g] = w := by
        simpa [Commit.expected, hlt] using hw'
      refine or_iff_not_imp_right.mpr fun hne => mem_divergent.mpr ⟨g, by omega, ?_, ?_⟩
      · simp [Nat.add_assoc]
      · simpa [Nat.add_assoc] using hne

theorem openRun_good {b : PackedBatch} {j : Joint} (h : Sound s) (hopen : s.winOpen = true)
    (hne : b.words ≠ []) (hstep : openRun c s b = some j) : Good c j := by
  refine openGroup_good h hopen (fun _ => rfl) ?_ (List.length_take_le _ _)
    (fun i w hi => absurd hi (Nat.not_lt_zero i)) hstep
  have hpos := List.length_pos_iff.mpr hne
  have hrem := h.rem
  simp only [List.length_take]
  omega

theorem Sound.setReady {v : ℕ} (h : Sound s) (hv : v ≤ s.nextSpan) : Sound (s.setReady v) where
  __ := h
  ready_le := hv
  exposed_le := max_le h.exposed_le hv

theorem publishReady_eq {s' : Sink} (hstep : s.publishReady = some s') :
    s' = s.setReady s.frontier := by
  unfold Sink.publishReady at hstep
  split_ifs at hstep
  exact (Option.some_inj.mp hstep).symm

theorem publishReady_classic {s' : Sink} (hstep : s.publishReady = some s') (h : s.winSs = false) :
    s' = s.setReady s.nextSpan := by
  rw [publishReady_eq hstep, Sink.frontier, if_neg (by simp [h])]

theorem publishReady_sound {s' : Sink} (h : Sound s) (hstep : s.publishReady = some s') :
    Sound s' ∧ s'.winOpen = s.winOpen := by
  obtain rfl := publishReady_classic hstep h.classic
  exact ⟨h.setReady le_rfl, rfl⟩

theorem Sound.setRem {n : ℕ} (h : Sound s) (hn : 0 < n) : Sound { s with submitRem := n } :=
  { h with rem := hn }

theorem Sound.flushPending (h : Sound s) : Sound s.flushPending := by
  unfold Sink.flushPending
  split_ifs
  · exact h
  · exact { h with }

theorem flushPending_winOpen : s.flushPending.winOpen = s.winOpen := by
  unfold Sink.flushPending
  split_ifs <;> rfl

theorem Sound.tryClaimInline {s' : Sink} (h : Sound s) (hstep : s.tryClaimInline c = some s') :
    Sound s' ∧ s'.winOpen = s.winOpen := by
  unfold Sink.tryClaimInline at hstep
  split_ifs at hstep
  obtain rfl := Option.some_inj.mp hstep
  exact ⟨{ h with }, rfl⟩

theorem runEnd_good {rem : ℕ} {b : PackedBatch} {j : Joint} (h : Sound s) (hopen : s.winOpen = true)
    (hstep : runEnd { s with submitRem := rem } b = some j) : Good c j := by
  unfold runEnd at hstep
  split_ifs at hstep with hrem
  · obtain ⟨s', hpub, rfl⟩ := Option.map_eq_some_iff.mp hstep
    obtain ⟨hs', hopen'⟩ := publishReady_sound
      (Sound.flushPending (h.setRem (n := chunk) (by decide))) hpub
    exact ⟨hs', hopen'.trans (flushPending_winOpen.trans hopen)⟩
  · obtain rfl := Option.some_inj.mp hstep
    exact ⟨h.setRem (Nat.pos_of_ne_zero hrem), hopen⟩

/-- One lane is fixed behind the guard. -/
theorem fix_lane_good {r : Commit} {idx w : ℕ} {bad : List (ℕ × ℕ)} (h : Good c (s, .fix r))
    (hbad : r.bad = (idx, w) :: bad) (hguard : ¬ (s.torWin = true ∧ s.foldPos < s.need idx)) :
    Good c (s.setFixed idx w, .fix { r with bad := bad }) := by
  obtain ⟨hs, hopen, hr⟩ := h
  obtain ⟨j₀, hj₀, hidx, hw⟩ := hr.lanes (idx, w) (by simp [hbad])
  have hplace : s.nextSpan - s.winBase ≤ idx := by simp only at hidx; omega
  have hrow : ∀ i, (s.setFixed idx w).st.arrays s.winSlot i =
      if i = idx then w else s.st.arrays s.winSlot i := by
    intro i
    split_ifs with hi
    · rw [hi]
      exact arrays_setArr_self
    · exact arrays_setArr_of_ne (Or.inr hi)
  refine ⟨{ hs.setArr (hs.unread_of_guard hopen hplace hguard) with }, hopen, ?_⟩
  constructor
  case off => exact hr.off
  case fits => exact hr.fits
  case rem => exact hr.rem
  case cap => exact hr.cap
  case lanes => exact fun p hp => hr.lanes p (by rw [hbad]; exact List.mem_cons_of_mem _ hp)
  case settled =>
    intro j v hj hv
    show (s.nextSpan - s.winBase + j, v) ∈ bad ∨
      (s.setFixed idx w).st.arrays s.winSlot (s.nextSpan - s.winBase + j) = v
    rw [hrow]
    rcases eq_or_ne (s.nextSpan - s.winBase + j) idx with heq | hne
    · obtain rfl : j = j₀ := Nat.add_left_cancel (heq.trans hidx)
      right
      simpa [heq] using hw.symm.trans hv
    · rw [if_neg hne]
      refine (hr.settled j v hj hv).imp_left fun hmem => ?_
      rw [hbad] at hmem
      exact (List.mem_cons.mp hmem).resolve_left fun he => hne (congrArg Prod.fst he)

/-- Once no lane is left, the words up to the group's end stand in the row. -/
theorem Checked.standing {r : Commit} (h : Checked c s r) (hbad : r.bad = []) :
    Standing s ((r.expected c).take (r.off + r.width)) := by
  intro j hj
  have hlt : j < r.off + r.width ∧ j < (r.expected c).length := by simpa using hj
  have hset := h.settled j _ hlt.1 (List.getElem?_eq_getElem hlt.2)
  simpa [hbad] using hset

theorem Checked.length_expected {r : Commit} : (r.expected c).length = r.words.length := by
  simp [Commit.expected]

/-- A group of an inline commit is done: the next group, or the whole run is emitted. -/
theorem inline_group_good {r : Commit} {j : Joint} {pending : ℕ} (hs : Sound s)
    (hopen : s.winOpen = true) (hr : Checked c s r) (hbad : r.bad = [])
    (hinl : s.curInline.isSome = true)
    (hstep : (if r.off + r.width < r.words.length then
        openGroup c s { r with off := r.off + r.width }
      else runEnd { s.emit (r.expected c) with
        submitRem := s.submitRem - r.words.length, pendingLen := pending } ⟨r.delta, r.rest⟩) =
      some j) : Good c j := by
  have hstand := hr.standing hbad
  have hfits := hr.fits
  have hlen := Checked.length_expected (c := c) (r := r)
  split_ifs at hstep with hmore
  · refine openGroup_good (r := { r with off := r.off + r.width }) hs hopen
      (fun hnone => by simp [hnone] at hinl) hmore hr.rem ?_ hstep
    intro i w hi hw
    simpa [hbad] using hr.settled i w hi hw
  · rw [List.take_of_length_le (by omega)] at hstand
    have hcap := hr.cap
    exact runEnd_good (s := { s.emit (r.expected c) with pendingLen := pending })
      { hs.emit hopen hstand (by omega) with } hopen hstep

/-- A group of an array-mode run is done and emitted. -/
theorem array_group_good {r : Commit} {j : Joint} (hs : Sound s) (hopen : s.winOpen = true)
    (hr : Checked c s r) (hbad : r.bad = []) (hoff : r.off = 0)
    (hstep : (if r.width < r.words.length then
        openGroup c { s.emit ((r.expected c).take r.width) with
          submitRem := s.submitRem - r.width } { r with words := r.words.drop r.width }
      else runEnd { s.emit ((r.expected c).take r.width) with
        submitRem := s.submitRem - r.width } ⟨r.delta, r.rest⟩) = some j) : Good c j := by
  have hstand := hr.standing hbad
  have hcap := hr.cap
  have hrem := hr.rem
  rw [hoff, Nat.zero_add] at hstand hcap
  have hemit := hs.emit hopen hstand ((Nat.add_le_add_left (List.length_take_le _ _) _).trans hcap)
  split_ifs at hstep with hmore
  · refine openGroup_good (r := { r with words := r.words.drop r.width })
      (hemit.setRem (by omega)) hopen (fun _ => hoff) ?_ ?_ ?_ hstep
    · simp only [List.length_drop]
      omega
    · simp only [List.length_drop]
      omega
    · intro i w hi
      simp [hoff] at hi
  · exact runEnd_good hemit hopen hstep

theorem fixStep_good {r : Commit} {j : Joint} (h : Good c (s, .fix r))
    (hstep : fixStep c s r = some j) : Good c j := by
  obtain ⟨hs, hopen, hr⟩ := h
  unfold fixStep at hstep
  cases hbad : r.bad with
  | cons p bad =>
      simp only [hbad] at hstep
      split_ifs at hstep with hguard
      obtain rfl := Option.some_inj.mp hstep
      exact fix_lane_good ⟨hs, hopen, hr⟩ hbad hguard
  | nil =>
      have htake : (r.words.take r.width).map (expect c r.delta) = (r.expected c).take r.width :=
        List.map_take
      rw [hbad] at hstep
      dsimp only at hstep
      rw [htake] at hstep
      cases hinl : s.curInline.isSome with
      | true =>
          rw [if_pos hinl] at hstep
          exact inline_group_good hs hopen hr hbad hinl hstep
      | false =>
          rw [if_neg (by simp [hinl])] at hstep
          exact array_group_good hs hopen hr hbad (hr.off (by simpa using hinl)) hstep

theorem batchStep_good {b : PackedBatch} {j : Joint} (h : Sound s) (hopen : s.winOpen = true)
    (hstep : batchStep c s b = some j) : Good c j := by
  unfold batchStep at hstep
  split_ifs at hstep with hnil hrem hforce hassist
  · obtain rfl := Option.some_inj.mp hstep
    exact ⟨h, trivial⟩
  · obtain rfl := Option.some_inj.mp hstep
    exact ⟨h, hopen, hnil⟩
  · cases hclaim : s.tryClaimInline c with
    | none =>
        simp only [hclaim] at hstep
        exact openRun_good h hopen hnil hstep
    | some s' =>
        simp only [hclaim] at hstep
        obtain ⟨hs', hopen'⟩ := h.tryClaimInline hclaim
        exact openRun_good (s := { s' with st := s'.st.markInline (s'.nextSpan / chunk) })
          { hs' with } (hopen'.trans hopen) hnil hstep
  · exact openRun_good h hopen hnil hstep
  · exact openRun_good h hopen hnil hstep

/-! ## Opens and closes -/

theorem publishRecord_cases {st st' : RxdescState} {slot : ℕ} {r : Record}
    (h : st.publishRecord slot r = some st') :
    st' = { st with records := Function.update st.records slot (some r), lastSlot := some slot } := by
  unfold RxdescState.publishRecord at h
  split_ifs at h
  exact (Option.some_inj.mp h).symm

theorem sealedTo_of_closed (h : s.winOpen = false) : sealedTo s = s.nextSpan := by
  simp [sealedTo, h]

/-- The open behind its gates: nobody reads the record slot, nor a row that is not kept. -/
theorem Sound.enter {tor : Bool} {recSlot arrSlot : ℕ} {st : RxdescState} (h : Sound s)
    (hclosed : s.winOpen = false) (hrec : passed s (s.recEnd recSlot) = true)
    (hrow : if tor then s.everOpened = true else passed s (s.slotEnd arrSlot) = true)
    (hst : s.st.publishRecord recSlot (s.opening recSlot arrSlot).record = some st) :
    Sound (s.enter st tor (s.opening recSlot arrSlot)) := by
  obtain rfl := publishRecord_cases hst
  have hsealed := sealedTo_of_closed hclosed
  have howner : ∀ gid, gid < s.nextSpan → (Log.owner { s.log with
      opens := s.opening recSlot arrSlot :: s.log.opens } gid) = s.log.owner gid :=
    fun gid hlt => Log.owner_push (w := s.opening recSlot arrSlot) hlt
  constructor
  case classic => exact h.classic
  case rem => exact h.rem
  case fold_le => exact h.fold_le
  case ready_le => exact h.ready_le
  case exposed_le => exact h.exposed_le
  case spans => exact h.spans
  case owned =>
    intro gid hlt
    obtain ⟨w, how⟩ := h.owned gid hlt
    exact ⟨w, (howner gid hlt).trans how⟩
  case shown =>
    intro gid w hfold hlt how
    have how' : s.log.owner gid = some w := (howner gid hlt).symm.trans how
    obtain ⟨hword, hpub⟩ := h.shown gid w hfold hlt how'
    refine ⟨hword, (Function.update_of_ne ?_ _ _).trans hpub⟩
    rintro rfl
    obtain ⟨e, hend, hlt'⟩ := (h.ended gid w (hsealed ▸ hlt) how').2
    have hle : e ≤ s.foldPos := by simpa [passed, hend] using hrec
    exact absurd (hle.trans hfold) (Nat.not_le.mpr hlt')
  case ended =>
    intro gid w hlt how
    have hlt' : gid < s.nextSpan := hlt
    exact h.ended gid w (hsealed ▸ hlt') ((howner gid hlt').symm.trans how)
  case unopened => exact fun hever => by simp [Sink.enter] at hever
  case current =>
    exact fun _ => ⟨rfl, le_rfl, by simp [Sink.enter, Sink.opening],
      s.opening recSlot arrSlot, s.log.opens, rfl, rfl, rfl, rfl, Function.update_self _ _ _⟩
  case rotating =>
    intro _ htor gid w hfold hlt how
    obtain rfl : tor = false := htor
    exact h.unread_of_passed hclosed hrow hfold hlt ((howner gid hlt).symm.trans how)
  case toroidal =>
    intro _ htor
    obtain rfl : tor = true := htor
    obtain ⟨hcount, hone⟩ := h.closed hclosed hrow
    refine ⟨hcount, fun gid hge hlt => ?_⟩
    obtain ⟨w, how, hbase⟩ := hone gid hge hlt
    exact ⟨w, (howner gid hlt).trans how, hbase⟩
  case closed => exact fun hopen => by simp [Sink.enter] at hopen

theorem Sound.closeWindow (h : Sound s) : Sound (closeWindow s) ∧ (closeWindow s).winOpen = false := by
  unfold RxSubmit.closeWindow
  split_ifs with hopen
  · refine ⟨?_, rfl⟩
    obtain ⟨hever, hbase, hcount, w, rest, hopens, hwbase, hwrow, hwrec, -⟩ := h.current hopen
    have hmin : min (s.nextSpan - s.winBase) s.st.cap = s.nextSpan - s.winBase := min_eq_left hcount
    have hstart : s.nextSpan - (s.nextSpan - s.winBase) = s.winBase := Nat.sub_sub_self hbase
    refine { h with ended := ?_, current := nofun, rotating := nofun, toroidal := nofun, closed := ?_ }
    · intro gid v hlt how
      have hlt' : gid < s.nextSpan := hlt
      rcases lt_or_ge gid s.winBase with hold | hnew
      · obtain ⟨⟨e, he, hge⟩, e', he', hge'⟩ := h.ended gid v (by simpa [sealedTo, hopen]) how
        constructor
        · rcases eq_or_ne v.arrSlot s.winSlot with heq | hne
          · exact ⟨s.nextSpan, by simp [heq], hlt'⟩
          · exact ⟨e, by simpa [hne] using he, hge⟩
        · rcases eq_or_ne v.recSlot s.winRec with heq | hne
          · exact ⟨s.nextSpan, by simp [heq], hlt'⟩
          · exact ⟨e', by simpa [hne] using he', hge'⟩
      · obtain rfl : w = v :=
          Option.some_inj.mp ((Log.owner_cons_of_le hopens (hwbase.trans_le hnew)).symm.trans how)
        exact ⟨⟨s.nextSpan, by simp [hwrow], hlt'⟩, s.nextSpan, by simp [hwrec], hlt'⟩
    · intro _ _
      refine ⟨?_, fun gid hge hlt => ⟨w, ?_, ?_⟩⟩
      · show min (s.nextSpan - s.winBase) s.st.cap ≤ s.nextSpan
        omega
      · have hge' : s.winBase ≤ gid := by simpa [hmin, hstart] using hge
        exact Log.owner_cons_of_le hopens (hwbase.trans_le hge')
      · simpa [hmin, hstart] using hwbase
  · exact ⟨h, by simpa using hopen⟩

theorem Sound.activate (h : Sound s) : Sound s.activate ∧ s.activate.winOpen = s.winOpen ∧
    s.activate.everOpened = s.everOpened := by
  unfold Sink.activate
  split_ifs
  · exact ⟨h, rfl, rfl⟩
  · exact ⟨{ h with }, rfl, rfl⟩

theorem openWindow_good {k : Option PackedBatch} (h : Sound s) (hclosed : s.winOpen = false) :
    Good c (openWindow c s k) := by
  obtain ⟨hs, hopen, hever⟩ := h.activate
  refine ⟨hs, ?_⟩
  cases htor : c.toroidal && s.everOpened && decide (1 ≤ s.steadyEpoch) with
  | true =>
      simp only [openWindow, htor]
      simp only [Bool.and_eq_true] at htor
      exact ⟨hopen.trans hclosed, hever.trans htor.1.2⟩
  | false =>
      simp only [openWindow, htor]
      exact hopen.trans hclosed

theorem reuseStep_good {recSlot arrSlot : ℕ} {k : Option PackedBatch} {j : Joint} (h : Sound s)
    (hclosed : s.winOpen = false) (hstep : reuseStep c s recSlot arrSlot k = some j) : Good c j := by
  dsimp only [reuseStep] at hstep
  split_ifs at hstep with hgate hskip
  · obtain rfl := Option.some_inj.mp hstep
    exact ⟨h, hclosed, hgate.2⟩
  · obtain rfl := Option.some_inj.mp hstep
    exact ⟨h, hclosed, hgate.2⟩

theorem warmStep_good {recSlot arrSlot copied : ℕ} {k : Option PackedBatch}
    (h : Good c (s, .warm recSlot arrSlot copied k)) :
    Good c (warmStep s recSlot arrSlot copied k) := by
  obtain ⟨hs, hclosed, hgate⟩ := h
  rcases lt_or_ge copied s.st.lastWindowCount with hmore | hdone
  · have hun : Unread s arrSlot copied := fun gid w hf hn ho =>
      Or.inl (hs.unread_of_passed hclosed hgate hf hn ho)
    rw [warmStep, if_pos hmore]
    exact ⟨hs.setArr hun, hclosed, hgate⟩
  · rw [warmStep, if_neg (Nat.not_lt.mpr hdone)]
    exact ⟨hs, hclosed, hgate⟩

theorem selfServe_off {s' : Sink} {tor : Bool} (hss : c.selfserve = false)
    (h : selfServe c s tor = some s') : s' = { s with winSs := false, winPre := 0 } := by
  simpa [selfServe, hss] using h.symm

theorem afterOpen_placed {k : Option PackedBatch} (h : s.winOpen = true) :
    Placed c s (afterOpen k) := by
  cases k with
  | none => trivial
  | some b => exact h

theorem watermarkStep_good {tor : Bool} {recSlot arrSlot : ℕ} {k : Option PackedBatch} {j : Joint}
    (hss : c.selfserve = false) (h : Good c (s, .watermark tor recSlot arrSlot k))
    (hstep : watermarkStep c s tor recSlot arrSlot k = some j) : Good c j := by
  obtain ⟨hs, hclosed, hrow⟩ := h
  dsimp only [watermarkStep] at hstep
  split_ifs at hstep with hrec
  obtain ⟨st, hst, hstep⟩ := Option.bind_eq_some_iff.mp hstep
  obtain ⟨s', hserve, hstep⟩ := Option.bind_eq_some_iff.mp hstep
  obtain rfl := Option.some_inj.mp hstep
  obtain rfl := selfServe_off hss hserve
  refine ⟨{ hs.enter hclosed hrec hrow hst with classic := rfl }, ?_⟩
  dsimp only
  split_ifs
  · exact (rfl : (s.enter st tor (s.opening recSlot arrSlot)).winOpen = true)
  · exact afterOpen_placed rfl

theorem Sound.retire {s' : Sink} (h : Sound s) (hstep : s.retire = some s') : Sound s' := by
  obtain ⟨t, hpub, rfl⟩ := Option.map_eq_some_iff.mp hstep
  obtain ⟨ht, -⟩ := publishReady_sound h.flushPending.closeWindow.1 hpub
  exact { ht with classic := rfl }

theorem Sound.fold {pos seq : ℕ} {s' : Sink} (h : Sound s) (hstep : foldStep s pos seq = some s') :
    Sound s' := by
  unfold foldStep at hstep
  split_ifs at hstep with hmove
  obtain rfl := Option.some_inj.mp hstep
  exact
    { h with
      fold_le := hmove.2.1
      shown := fun gid w hf => h.shown gid w (hmove.1.trans hf)
      rotating := fun ho ht gid w hf => h.rotating ho ht gid w (hmove.1.trans hf) }

theorem passed_mono {e : Option ℕ} {pos seq : ℕ} {s' : Sink} (hstep : foldStep s pos seq = some s')
    (h : passed s e = true) : passed s' e = true := by
  unfold foldStep at hstep
  split_ifs at hstep with hmove
  obtain rfl := Option.some_inj.mp hstep
  cases e with
  | none => rfl
  | some e =>
      have hle : e ≤ s.foldPos := by simpa [passed] using h
      simpa [passed] using hle.trans hmove.1

theorem Placed.fold {ctl : Ctl} {pos seq : ℕ} {s' : Sink} (h : Placed c s ctl)
    (hstep : foldStep s pos seq = some s') : Placed c s' ctl := by
  have hpass : ∀ e, passed s e = true → passed s' e = true := fun _ => passed_mono hstep
  unfold foldStep at hstep
  split_ifs at hstep
  obtain rfl := Option.some_inj.mp hstep
  cases ctl with
  | idle => trivial
  | drain => trivial
  | reuse | straddle | pace | batch | claim => exact h
  | warm => exact ⟨h.1, hpass _ h.2⟩
  | watermark tor =>
      refine ⟨h.1, ?_⟩
      have hrow := h.2
      split_ifs at hrow ⊢
      · exact hrow
      · exact hpass _ hrow
  | fix r => exact ⟨h.1, { h.2 with }⟩

theorem core_good {ctl : Ctl} {j : Joint} (hss : c.selfserve = false) (h : Good c (s, ctl))
    (hstep : core c s ctl = some j) : Good c j := by
  obtain ⟨hs, hplace⟩ : Sound s ∧ Placed c s ctl := h
  cases ctl with
  | idle => exact nomatch hstep
  | reuse => exact reuseStep_good hs hplace hstep
  | warm => exact Option.some_inj.mp hstep ▸ warmStep_good ⟨hs, hplace⟩
  | watermark => exact watermarkStep_good hss ⟨hs, hplace⟩ hstep
  | straddle k =>
      obtain ⟨s', hclaim, rfl⟩ := Option.map_eq_some_iff.mp hstep
      obtain ⟨hs', hopen⟩ := hs.tryClaimInline hclaim
      exact ⟨hs', afterOpen_placed (hopen.trans hplace)⟩
  | pace b =>
      dsimp only [core, paceStep] at hstep
      split_ifs at hstep with hpace hserve
      · exact absurd hserve.1 (by simp [hs.classic])
      · exact Option.some_inj.mp hstep ▸ ⟨hs, hplace⟩
  | batch b => exact batchStep_good hs hplace hstep
  | claim b =>
      obtain ⟨s', hclaim, hrun⟩ := Option.bind_eq_some_iff.mp hstep
      obtain ⟨hs', hopen⟩ := hs.tryClaimInline hclaim
      exact openRun_good (s := { s' with st := s'.st.markInline (s'.nextSpan / chunk) })
        { hs' with } (hopen.trans hplace.1) hplace.2 hrun
  | fix r => exact fixStep_good ⟨hs, hplace⟩ hstep
  | drain =>
      dsimp only [core] at hstep
      split_ifs at hstep
      obtain rfl := Option.some_inj.mp hstep
      exact ⟨hs, trivial⟩

theorem beginPass_good {j : Joint} (h : Sound s) (hstep : beginPass c s = some j) : Good c j := by
  dsimp only [beginPass] at hstep
  have hs : Sound { s with passStartSpan := some s.nextSpan, passOpen := true } := { h with }
  split_ifs at hstep with hpass hopen
  · obtain rfl := Option.some_inj.mp hstep
    exact ⟨hs, trivial⟩
  · exact Option.some_inj.mp hstep ▸ openWindow_good hs (by simpa using hopen)

theorem submit_good {b : PackedBatch} (h : Sound s) : Good c (submit c s b) := by
  unfold submit
  split_ifs with hnil hopen
  · exact ⟨h, trivial⟩
  · exact ⟨h, hopen⟩
  · exact openWindow_good h (by simpa using hopen)

theorem step_good {i : Label} {j j' : Joint} (hss : c.selfserve = false) (h : Good c j)
    (hstep : step c j i = some j') : Good c j' := by
  obtain ⟨s, ctl⟩ := j
  cases i with
  | fold pos seq =>
      obtain ⟨s', hfold, rfl⟩ := Option.map_eq_some_iff.mp hstep
      exact ⟨h.1.fold hfold, h.2.fold hfold⟩
  | core => exact core_good hss h hstep
  | beginPass =>
      cases ctl with
      | idle => exact beginPass_good h.1 hstep
      | _ => exact nomatch hstep
  | submit b =>
      cases ctl with
      | idle => exact Option.some_inj.mp hstep ▸ submit_good h.1
      | _ => exact nomatch hstep
  | endPass =>
      cases ctl with
      | idle =>
          dsimp only [step, endPass] at hstep
          split_ifs at hstep
          obtain ⟨s', hretire, rfl⟩ := Option.map_eq_some_iff.mp hstep
          have hs : Sound { s with passOpen := false } := { h.1 with }
          exact ⟨hs.retire hretire, trivial⟩
      | _ => exact nomatch hstep
  | finish =>
      cases ctl with
      | idle =>
          obtain ⟨s', hretire, rfl⟩ := Option.map_eq_some_iff.mp hstep
          exact ⟨h.1.retire hretire, trivial⟩
      | _ => exact nomatch hstep

theorem Fresh.sound (h : Fresh s) : Sound s where
  classic := h.winSs
  rem := by rw [h.submitRem]; decide
  fold_le := by rw [h.foldPos]; exact Nat.zero_le _
  ready_le := by rw [h.ready]; exact Nat.zero_le _
  exposed_le := by rw [h.log]; exact Nat.zero_le _
  spans := by rw [h.log, h.nextSpan]; rfl
  owned gid hlt := by rw [h.nextSpan] at hlt; omega
  shown gid w _ hlt := by rw [h.nextSpan] at hlt; omega
  ended gid w hlt := by
    rw [sealedTo_of_closed h.winOpen, h.nextSpan] at hlt
    omega
  unopened _ := h.nextSpan
  current ho := by simp [h.winOpen] at ho
  rotating ho := by simp [h.winOpen] at ho
  toroidal ho := by simp [h.winOpen] at ho
  closed _ he := by simp [h.everOpened] at he

theorem Reached.good {j : Joint} (hss : c.selfserve = false) (h : Reached c j) : Good c j := by
  obtain ⟨s, hfresh, hreach⟩ := h
  have hstart : Good c (s, .idle) := ⟨hfresh.sound, trivial⟩
  exact Transition.invariant (fun _ _ _ hg hstep => step_good hss hg hstep) hstart hreach

/-! ## The log only grows -/

/-- Later windows start behind the spans emitted so far, and later words are appended. -/
def Grown (s s' : Sink) : Prop :=
  s.nextSpan ≤ s'.nextSpan ∧ ∀ gid, gid < s.nextSpan →
    s'.log.owner gid = s.log.owner gid ∧ s'.log.spans[gid]? = s.log.spans[gid]?

theorem Grown.of_eq {s' : Sink} (hn : s'.nextSpan = s.nextSpan) (ho : s'.log.opens = s.log.opens)
    (hs : s'.log.spans = s.log.spans) : Grown s s' :=
  ⟨hn.ge, fun gid _ => ⟨by unfold Log.owner; rw [ho], by rw [hs]⟩⟩

theorem Grown.refl (s : Sink) : Grown s s := .of_eq rfl rfl rfl

theorem Grown.trans {s' s'' : Sink} (h : Grown s s') (h' : Grown s' s'') : Grown s s'' := by
  refine ⟨h.1.trans h'.1, fun gid hlt => ?_⟩
  obtain ⟨ho, hw⟩ := h.2 gid hlt
  obtain ⟨ho', hw'⟩ := h'.2 gid (hlt.trans_le h.1)
  exact ⟨ho'.trans ho, hw'.trans hw⟩

theorem Sound.grown_emit (h : Sound s) (words : List ℕ) : Grown s (s.emit words) :=
  ⟨Nat.le_add_right _ _, fun _ hlt => ⟨rfl, List.getElem?_append_left (by rwa [h.spans])⟩⟩

theorem grown_enter {st : RxdescState} {tor : Bool} {recSlot arrSlot : ℕ} :
    Grown s (s.enter st tor (s.opening recSlot arrSlot)) :=
  ⟨le_rfl, fun _ hlt => ⟨Log.owner_push (w := s.opening recSlot arrSlot) hlt, rfl⟩⟩

theorem grown_setReady {v : ℕ} : Grown s (s.setReady v) := .of_eq rfl rfl rfl

theorem grown_publishReady {s' : Sink} (h : s.publishReady = some s') : Grown s s' :=
  publishReady_eq h ▸ grown_setReady

theorem grown_flushPending : Grown s s.flushPending := by
  unfold Sink.flushPending
  split_ifs
  · exact .refl s
  · exact .of_eq rfl rfl rfl

theorem grown_tryClaimInline {s' : Sink} (h : s.tryClaimInline c = some s') : Grown s s' := by
  unfold Sink.tryClaimInline at h
  split_ifs at h
  exact Option.some_inj.mp h ▸ .of_eq rfl rfl rfl

theorem openGroup_fst {r : Commit} {j : Joint} (h : openGroup c s r = some j) : j.1 = s := by
  dsimp only [openGroup] at h
  split_ifs at h
  exact (congrArg Prod.fst (Option.some_inj.mp h)).symm

theorem grown_runEnd {b : PackedBatch} {j : Joint} (h : runEnd s b = some j) : Grown s j.1 := by
  unfold runEnd at h
  split_ifs at h
  · obtain ⟨s', hpub, rfl⟩ := Option.map_eq_some_iff.mp h
    have hrem : Grown s { s with submitRem := chunk } := .of_eq rfl rfl rfl
    exact (hrem.trans grown_flushPending).trans (grown_publishReady hpub)
  · exact Option.some_inj.mp h ▸ Grown.refl s

theorem Sound.grown_fixStep {r : Commit} {j : Joint} (h : Sound s)
    (hstep : fixStep c s r = some j) : Grown s j.1 := by
  unfold fixStep at hstep
  split at hstep
  · split_ifs at hstep
    exact Option.some_inj.mp hstep ▸ .of_eq rfl rfl rfl
  · dsimp only at hstep
    split_ifs at hstep
    · exact openGroup_fst hstep ▸ .refl s
    · refine Grown.trans ?_ (grown_runEnd hstep)
      exact (h.grown_emit _).trans (.of_eq rfl rfl rfl)
    · exact openGroup_fst hstep ▸ (h.grown_emit _).trans (.of_eq rfl rfl rfl)
    · refine Grown.trans ?_ (grown_runEnd hstep)
      exact (h.grown_emit _).trans (.of_eq rfl rfl rfl)

theorem grown_openRun {b : PackedBatch} {j : Joint} (h : openRun c s b = some j) : Grown s j.1 :=
  openGroup_fst h ▸ .refl s

theorem grown_claimed {s' : Sink} {b : PackedBatch} {j : Joint} (h : s.tryClaimInline c = some s')
    (hrun : openRun c { s' with st := s'.st.markInline (s'.nextSpan / chunk) } b = some j) :
    Grown s j.1 := by
  refine Grown.trans ?_ (grown_openRun hrun)
  exact (grown_tryClaimInline h).trans (.of_eq rfl rfl rfl)

theorem grown_batchStep {b : PackedBatch} {j : Joint} (h : batchStep c s b = some j) :
    Grown s j.1 := by
  unfold batchStep at h
  split_ifs at h
  · exact Option.some_inj.mp h ▸ .refl s
  · exact Option.some_inj.mp h ▸ .refl s
  · split at h
    next s' hclaim => exact grown_claimed hclaim h
    next => exact grown_openRun h
  · exact grown_openRun h
  · exact grown_openRun h

theorem grown_watermarkStep {tor : Bool} {recSlot arrSlot : ℕ} {k : Option PackedBatch} {j : Joint}
    (h : watermarkStep c s tor recSlot arrSlot k = some j) : Grown s j.1 := by
  dsimp only [watermarkStep] at h
  split_ifs at h
  obtain ⟨st, -, h⟩ := Option.bind_eq_some_iff.mp h
  obtain ⟨s', hserve, h⟩ := Option.bind_eq_some_iff.mp h
  obtain rfl := Option.some_inj.mp h
  have henter : Grown s (s.enter st tor (s.opening recSlot arrSlot)) := grown_enter
  refine henter.trans ?_
  dsimp only [selfServe] at hserve
  split_ifs at hserve
  · exact Option.some_inj.mp hserve ▸ .of_eq rfl rfl rfl
  · exact Option.some_inj.mp hserve ▸ .of_eq rfl rfl rfl

theorem grown_activate : Grown s s.activate := by
  unfold Sink.activate
  split_ifs
  · exact .refl s
  · exact .of_eq rfl rfl rfl

theorem grown_closeWindow : Grown s (closeWindow s) := by
  unfold closeWindow
  split_ifs
  · exact .of_eq rfl rfl rfl
  · exact .refl s

theorem grown_retire {s' : Sink} (h : s.retire = some s') : Grown s s' := by
  obtain ⟨t, hpub, rfl⟩ := Option.map_eq_some_iff.mp h
  refine Grown.trans ?_ (.of_eq rfl rfl rfl : Grown t _)
  exact (grown_flushPending.trans grown_closeWindow).trans (grown_publishReady hpub)

theorem Sound.grown_core {ctl : Ctl} {j : Joint} (h : Sound s) (hstep : core c s ctl = some j) :
    Grown s j.1 := by
  cases ctl with
  | idle => exact nomatch hstep
  | reuse =>
      dsimp only [core, reuseStep] at hstep
      split_ifs at hstep
      all_goals exact Option.some_inj.mp hstep ▸ .refl s
  | warm recSlot arrSlot copied k =>
      obtain rfl := Option.some_inj.mp hstep
      rcases lt_or_ge copied s.st.lastWindowCount with hmore | hdone
      · rw [warmStep, if_pos hmore]
        exact .of_eq rfl rfl rfl
      · rw [warmStep, if_neg (Nat.not_lt.mpr hdone)]
        exact .refl s
  | watermark => exact grown_watermarkStep hstep
  | straddle k =>
      obtain ⟨s', hclaim, rfl⟩ := Option.map_eq_some_iff.mp hstep
      exact grown_tryClaimInline hclaim
  | pace b =>
      dsimp only [core, paceStep] at hstep
      split_ifs at hstep
      · obtain rfl := Option.some_inj.mp hstep
        exact (h.grown_emit _).trans (.of_eq rfl rfl rfl)
      · exact Option.some_inj.mp hstep ▸ .refl s
  | batch b => exact grown_batchStep hstep
  | claim b =>
      obtain ⟨s', hclaim, hrun⟩ := Option.bind_eq_some_iff.mp hstep
      exact grown_claimed hclaim hrun
  | fix r => exact h.grown_fixStep hstep
  | drain =>
      dsimp only [core] at hstep
      split_ifs at hstep
      exact Option.some_inj.mp hstep ▸ .refl s

theorem Sound.grown_step {i : Label} {ctl : Ctl} {j : Joint} (h : Sound s)
    (hstep : step c (s, ctl) i = some j) : Grown s j.1 := by
  cases i with
  | fold pos seq =>
      obtain ⟨s', hfold, rfl⟩ := Option.map_eq_some_iff.mp hstep
      unfold foldStep at hfold
      split_ifs at hfold
      exact Option.some_inj.mp hfold ▸ .of_eq rfl rfl rfl
  | core => exact h.grown_core hstep
  | beginPass =>
      cases ctl with
      | idle =>
          dsimp only [step, beginPass] at hstep
          split_ifs at hstep
          · exact Option.some_inj.mp hstep ▸ .of_eq rfl rfl rfl
          · obtain rfl := Option.some_inj.mp hstep
            refine Grown.trans ?_ grown_activate
            exact .of_eq rfl rfl rfl
      | _ => exact nomatch hstep
  | submit b =>
      cases ctl with
      | idle =>
          obtain rfl := Option.some_inj.mp hstep
          unfold submit
          split_ifs
          · exact .refl s
          · exact .refl s
          · exact grown_activate
      | _ => exact nomatch hstep
  | endPass =>
      cases ctl with
      | idle =>
          dsimp only [step, endPass] at hstep
          split_ifs at hstep
          obtain ⟨s', hretire, rfl⟩ := Option.map_eq_some_iff.mp hstep
          refine Grown.trans ?_ (grown_retire hretire)
          exact .of_eq rfl rfl rfl
      | _ => exact nomatch hstep
  | finish =>
      cases ctl with
      | idle =>
          obtain ⟨s', hretire, rfl⟩ := Option.map_eq_some_iff.mp hstep
          exact grown_retire hretire
      | _ => exact nomatch hstep

/-- From the ready store that exposes a span until the fold passes it, the word at the span's
place in its window's row stays the check-and-fix word of its body, and the window's record
stays in its slot. -/
theorem array_word_stable {j j' : Joint} (hss : c.selfserve = false) (hj : Reached c j)
    (hrun : Transition.Reachable (step c) j j') {gid : ℕ} (hready : gid < j.1.st.ready)
    (hfold : j'.1.foldPos ≤ gid) :
    ∃ w word, j.1.log.owner gid = some w ∧ w.base ≤ gid ∧ j.1.log.spans[gid]? = some word ∧
      j'.1.st.arrays w.arrSlot (gid - w.base) = word ∧
      j'.1.st.records w.recSlot = some w.record := by
  have hgood := hj.good hss
  obtain ⟨hgood', hgrown⟩ : Good c j' ∧ Grown j.1 j'.1 :=
    Transition.invariant (P := fun t => Good c t ∧ Grown j.1 t.1)
      (fun t i t' ht hstep => ⟨step_good hss ht.1 hstep, ht.2.trans (ht.1.1.grown_step hstep)⟩)
      ⟨hgood, .refl _⟩ hrun
  have hnext : gid < j.1.nextSpan := hready.trans_le hgood.1.ready_le
  obtain ⟨w, how⟩ := hgood.1.owned gid hnext
  obtain ⟨hsame, hword⟩ := hgrown.2 gid hnext
  obtain ⟨hshown, hrec⟩ :=
    hgood'.1.shown gid w hfold (hnext.trans_le hgrown.1) (hsame.trans how)
  exact ⟨w, _, how, Log.owner_base_le how, hword.symm.trans hshown, rfl, hrec⟩

/-- The first span of a generation while a toroidal window is checked. -/
theorem array_word_stable_toroidal : ∃ j j', Reached toroidalConfig j ∧
    Transition.Reachable (step toroidalConfig) j j' ∧ 0 < j.1.st.ready ∧ j'.1.foldPos ≤ 0 ∧
    j'.1.torWin = true ∧ ∃ w word, j.1.log.owner 0 = some w ∧ w.base ≤ 0 ∧
      j.1.log.spans[0]? = some word ∧ j'.1.st.arrays w.arrSlot (0 - w.base) = word ∧
      j'.1.st.records w.recSlot = some w.record := by
  have hfirst : (Transition.run (step toroidalConfig) (.new 8, .idle)
      (passLabels 3 [7] 5 ++ [.endPass])).any (fun j => decide (0 < j.1.st.ready) &&
        (Transition.run (step toroidalConfig) j
          (passLabels 4 [7] 4 ++ [.endPass] ++ passLabels 1 [7, 9] 3)).any fun j' =>
            decide (j'.1.foldPos ≤ 0) && j'.1.torWin) = true := by
    decide +kernel
  obtain ⟨j, hj, hat⟩ := (Option.any_eq_true _ _).mp hfirst
  obtain ⟨hready, hrest⟩ := Bool.and_eq_true_iff.mp hat
  obtain ⟨j', hj', hat'⟩ := (Option.any_eq_true _ _).mp hrest
  obtain ⟨hfold, htor⟩ := Bool.and_eq_true_iff.mp hat'
  have hready := of_decide_eq_true hready
  have hfold := of_decide_eq_true hfold
  exact ⟨j, j', .of_run hj, ⟨_, hj'⟩, hready, hfold, htor,
    array_word_stable rfl (.of_run hj) ⟨_, hj'⟩ hready hfold⟩

end HftProj.Testkit.RxSubmit
