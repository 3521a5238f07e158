import HftProj.Arbitrator.Offers

/-!
# What recovery intents are made from

Beside the watermark and the window the intent generator reads the heartbeat mark, the
outstanding range and two clocks. Data frames touch none of them, except that a watermark
passing the outstanding range retires it; the staging high mark is lowered only when the
window runs empty.
-/

namespace HftProj.Arbitrator

open HftProj.Lib HftProj.Protocol HftProj.Protocol.Moldudp64 HftProj.Protocol.Packet

/-- The heartbeat mark and its time, the time of the last intent, and the outstanding range. -/
structure Gauges where
  hbSeq : ℕ
  hbVt : ℕ
  lastIntentVt : ℕ
  pendingTo : Option ℕ
  deriving DecidableEq

/-- The outstanding range is kept as long as it ends ahead of the watermark. -/
def Gauges.retire (g : Gauges) (w : ℕ) : Gauges :=
  { g with pendingTo := g.pendingTo.filter fun p => w < p }

/-! ## The staging high mark -/

namespace Window

/-- Nothing is staged any more and the high mark is gone. -/
def Emptied (win : Window) : Prop := win.stagedCount = 0 ∧ win.maxStaged = 0

theorem drain_maxStaged (win : Window) (w gen : ℕ) :
    (win.drain w gen).1.maxStaged = win.maxStaged ∨ (win.drain w gen).1.Emptied := by
  have hloop : ∀ n (win : Window) w, (drainLoop ⟨gen⟩ n win w).1.maxStaged = win.maxStaged := by
    intro n
    induction n with
    | zero => exact fun _ _ => rfl
    | succ n ih =>
        intro win w
        unfold drainLoop
        dsimp only
        split
        · rfl
        · exact ih _ _
  unfold drain
  split
  · exact .inl rfl
  · dsimp only
    split
    · rename_i h0
      exact .inr ⟨h0, rfl⟩
    · exact .inl (hloop _ win w)

theorem clearCells_maxStaged (cells : List ℕ) (win : Window) :
    (clearCells cells win).1.maxStaged = win.maxStaged ∨ (clearCells cells win).1.Emptied := by
  induction cells generalizing win with
  | nil => exact .inl rfl
  | cons cell cells ih =>
      unfold clearCells
      split
      · dsimp only
        split
        · rename_i h0
          exact .inr ⟨h0, rfl⟩
        · exact ih _
      · exact ih win

/-- An empty window stays so. -/
theorem clearCells_emptied (cells : List ℕ) {win : Window} (h : win.Emptied) :
    (clearCells cells win).1.Emptied := by
  induction cells generalizing win with
  | nil => exact h
  | cons cell cells ih =>
      unfold clearCells
      split
      · have hcount : win.stagedCount - 1 = 0 := by rw [h.1]
        dsimp only
        rw [if_pos hcount]
        exact ⟨hcount, rfl⟩
      · exact ih h

theorem clearSlots_maxStaged (win : Window) (oldW newW : ℕ) :
    (win.clearSlots oldW newW).maxStaged = win.maxStaged ∨
      (win.clearSlots oldW newW).Emptied := by
  unfold clearSlots
  split
  · exact .inl rfl
  · dsimp only
    split
    · exact .inl rfl
    · split
      · exact clearCells_maxStaged _ win
      · rcases clearCells_maxStaged (List.range' (oldW &&& WINDOW_MASK)
          (min (WINDOW_SLOTS - (oldW &&& WINDOW_MASK))
            (min newW (saturatingAdd oldW WINDOW_SLOTS) - oldW))) win with h | h
        · rw [← h]
          exact clearCells_maxStaged _ _
        · exact .inr (clearCells_emptied _ h)

theorem drain_emptied {win : Window} (h : win.Emptied) (w gen : ℕ) :
    (win.drain w gen).1.Emptied := by
  rw [drain, if_pos h.1]
  exact h

end Window

namespace Sequencer

def gauges (s : Sequencer) : Gauges := ⟨s.hbSeq, s.hbVt, s.lastIntentVt, s.pendingTo⟩

section Gauges

variable (s : Sequencer)

theorem gapEvidence_gauges (x : ℕ) : (s.gapEvidence x).1.gauges = s.gauges := by
  unfold gapEvidence
  split
  · rfl
  · split <;> rfl

theorem checkGapClose_gauges (gen : ℕ) : (s.checkGapClose gen).1.gauges = s.gauges := by
  unfold checkGapClose
  split <;> rfl

theorem advance_gauges (last nowNs : ℕ) : (s.advance last nowNs).1.gauges = s.gauges := by
  rw [advance_eq]
  exact checkGapClose_gauges _ _

theorem settle_gauges (nowNs : ℕ) : (s.settle nowNs).1.gauges = s.gauges :=
  checkGapClose_gauges _ _

theorem retirePending_gauges : s.retirePending.gauges = s.gauges.retire s.w := by
  unfold retirePending Gauges.retire gauges
  cases hp : s.pendingTo with
  | none => rw [hp]; rfl
  | some p =>
      dsimp only
      split
      · rename_i h
        rw [Option.filter_some, if_neg (by simpa using h)]
      · rename_i h
        rw [hp, Option.filter_some, if_pos (by simpa using h)]

/-- What heartbeats and ends of session leave alone. -/
structure Keeps (s t : Sequencer) : Prop where
  session : t.session = s.session
  w : t.w = s.w
  pendingTo : t.pendingTo = s.pendingTo
  window : t.window = s.window

theorem handleHeartbeat_keeps (seq nowNs : ℕ) : s.Keeps (s.handleHeartbeat seq nowNs).1 := by
  have hev : ∀ (t : Sequencer) x, t.Keeps (t.gapEvidence x).1 := fun t x =>
    ⟨t.gapEvidence_session x, (t.gapEvidence_window x).2.1,
      congrArg Gauges.pendingTo (t.gapEvidence_gauges x), (t.gapEvidence_window x).1⟩
  unfold handleHeartbeat
  dsimp only [count]
  split_ifs
  · exact ⟨rfl, rfl, rfl, rfl⟩
  · exact ⟨rfl, rfl, rfl, rfl⟩
  · exact ⟨rfl, rfl, rfl, rfl⟩
  · obtain ⟨h₁, h₂, h₃, h₄⟩ := hev _ seq
    exact ⟨h₁, h₂, h₃, h₄⟩
  · exact ⟨rfl, rfl, rfl, rfl⟩

theorem handleEos_keeps (hdr : Header) : s.Keeps (s.handleEos hdr).1 := by
  unfold handleEos
  dsimp only [count]
  split_ifs <;> exact ⟨rfl, rfl, rfl, rfl⟩

theorem handleEos_gauges (hdr : Header) : (s.handleEos hdr).1.gauges = s.gauges := by
  unfold handleEos
  dsimp only [count]
  split_ifs <;> rfl

theorem sealDead_gauges (reason : DeadReason) : (s.sealDead reason).1.gauges = s.gauges := by
  unfold sealDead
  split <;> rfl

/-- A data frame leaves the gauges alone, or retires what its watermark has passed. -/
theorem applyFrame_gauges {frame : List UInt8} {hdr : Header}
    (hhdr : parseHeader frame = .ok hdr) (last nowNs : ℕ) :
    let r := (s.applyFrame frame hdr hdr.seq last nowNs).1
    (r.gauges = s.gauges ∧ r.w = s.w) ∨ r.gauges = s.gauges.retire r.w := by
  have hretired : ∀ t : Sequencer, t.gauges = s.gauges →
      t.retirePending.gauges = s.gauges.retire t.retirePending.w := by
    intro t ht
    rw [retirePending_gauges, ht, w_of_core t.retirePending_core]
  dsimp only
  unfold applyFrame
  split
  · rw [applyContiguous_walk s hhdr]
    dsimp only
    cases walkError frame hdr (min (wrappingSub s.w hdr.seq) hdr.count) with
    | some e => exact .inl ⟨rfl, rfl⟩
    | none => exact .inr (hretired _ (advance_gauges _ last nowNs))
  · have hev := s.gapEvidence_gauges hdr.seq
    rw [applyGap_walk s hhdr, Traced.andThen_fst]
    dsimp only
    cases walkError frame hdr 0 with
    | some e => exact .inl ⟨hev, (s.gapEvidence_window hdr.seq).2.1⟩
    | none => exact .inr (hretired _ ((settle_gauges _ nowNs).trans hev))

/-! ## Arrival -/

/-- The sequencer as the frames of session `next` find it. -/
def arrive (bytes : List UInt8) (feed : FeedId) (next : SessionId) : Sequencer :=
  ((s.countPacket bytes feed).dispatchSession next).1

/-- How the sequencer is found: as it was, but for its session, or behind a boundary. -/
inductive Arrived (next : SessionId) (s t : Sequencer) : Prop
  | kept (hs : s.session = zeroSession ∨ s.session = next)
      (hcore : t.core = core { s with session := next }) (hgauges : t.gauges = s.gauges)
      (hvt : t.progressVt = s.progressVt) (hwin : t.window = s.window)
  | crossed (h0 : s.session ≠ zeroSession) (hn : s.session ≠ next)
      (hcore : t.core = (s.crossTo next).core)
      (hgauges : t.gauges = ⟨0, 0, s.lastIntentVt, none⟩) (hmax : t.window.maxStaged = 0)

theorem refreshed (next : SessionId) :
    (s.dispatchSession next).1.gauges = (s.sessionDispatch next).1.gauges ∧
      (s.dispatchSession next).1.progressVt = (s.sessionDispatch next).1.progressVt ∧
      (s.dispatchSession next).1.window = (s.sessionDispatch next).1.window := by
  unfold dispatchSession
  dsimp only
  split <;> exact ⟨rfl, rfl, rfl⟩

theorem dispatchSession_arrived (next : SessionId) :
    Arrived next s (s.dispatchSession next).1 := by
  have hcore := s.dispatchSession_fst next
  obtain ⟨hgauges, hvt, hwin⟩ := s.refreshed next
  by_cases h0 : s.session = zeroSession
  · have hrun : s.sessionDispatch next = ({ s with
        session := next
        counters := { s.counters with sessions := s.counters.sessions + 1 } }, []) := if_pos h0
    rw [hrun] at hcore hgauges hvt hwin
    exact .kept (.inl h0) hcore hgauges hvt hwin
  by_cases hn : s.session = next
  · have hrun : s.sessionDispatch next = (s, []) := by
      rw [sessionDispatch, if_neg h0, if_neg (not_not.mpr hn)]
    rw [hrun] at hcore hgauges hvt hwin
    have hsame : { s with session := next } = s := by rw [← hn]
    exact .kept (.inr hn) (hcore.trans (congrArg core hsame.symm)) hgauges hvt hwin
  · have hcrossed : (s.sessionDispatch next).1.gauges = ⟨0, 0, s.lastIntentVt, none⟩ ∧
        (s.sessionDispatch next).1.window.maxStaged = 0 := by
      rw [sessionDispatch, if_neg h0, if_pos hn]
      dsimp only [gauges]
      split <;> exact ⟨rfl, rfl⟩
    exact .crossed h0 hn (hcore.trans (sessionDispatch_boundary h0 hn).1)
      (hgauges.trans hcrossed.1) ((congrArg Window.maxStaged hwin).trans hcrossed.2)

theorem Arrived.congr {next : SessionId} {s s' t : Sequencer} (h : Arrived next s' t)
    (hcore : s'.core = s.core) (hgauges : s'.gauges = s.gauges)
    (hvt : s'.progressVt = s.progressVt) (hwin : s'.window = s.window) : Arrived next s t := by
  have hsession := session_of_core hcore
  have hvt' : s'.lastIntentVt = s.lastIntentVt := congrArg Gauges.lastIntentVt hgauges
  cases h with
  | kept hs h₁ h₂ h₃ h₄ =>
      refine .kept (hsession ▸ hs) (h₁.trans ?_) (h₂.trans hgauges) (h₃.trans hvt) (h₄.trans hwin)
      calc core { s' with session := next } = { s'.core with session := next } := rfl
        _ = _ := by rw [hcore]; rfl
  | crossed h0 hn h₁ h₂ h₃ =>
      exact .crossed (hsession ▸ h0) (hsession ▸ hn) (h₁.trans (crossTo_congr hcore next))
        (h₂.trans (by rw [hvt'])) h₃

theorem arrive_arrived (bytes : List UInt8) (feed : FeedId) (next : SessionId) :
    Arrived next s (s.arrive bytes feed next) := by
  have hcount : (s.countPacket bytes feed).gauges = s.gauges := rfl
  exact (dispatchSession_arrived _ next).congr (s.countPacket_core bytes feed) hcount rfl rfl

end Gauges

theorem dispatched_session {s t : Sequencer} {next : SessionId} {calls : List SinkCall}
    (hd : Dispatched next s calls t) : t.session = next := by
  cases hd with
  | same hs ht => exact (session_of_core ht).trans hs
  | adopt _ ht => exact session_of_core ht
  | boundary _ _ ht =>
      refine (session_of_core ht).trans ?_
      unfold crossTo
      rfl

theorem dispatched_live {s t : Sequencer} {next : SessionId} {calls : List SinkCall}
    (hd : Dispatched next s calls t) (hlive : s.state ≠ .dead) : t.state ≠ .dead := by
  cases hd with
  | same _ ht => exact (state_of_core ht).trans_ne hlive
  | adopt _ ht => exact (state_of_core ht).trans_ne hlive
  | boundary _ _ ht =>
      refine (state_of_core ht).trans_ne ?_
      unfold crossTo
      exact nofun

/-- A frame with a header is dispatched and then handled by its kind. -/
theorem ingest_eq {s : Sequencer} {bytes : List UInt8} {hdr : Header} (hlive : s.state ≠ .dead)
    (h : parseHeader bytes = .ok hdr) (feed : FeedId) (nowNs : ℕ) :
    s.ingest bytes feed nowNs =
      ((s.countPacket bytes feed).dispatchSession hdr.session).andThen
        fun t => t.ingestKind bytes hdr feed nowNs := by
  have hlen := Nat.not_lt.mpr (parseHeader_ok h).1
  unfold ingest
  dsimp only
  rw [if_neg hlen, h]
  exact if_neg hlive

/-! ## The requested range -/

/-- Where the end of a requested range comes from. -/
inductive RangeEnd where
  | outstanding (p : ℕ)
  | trigger (t : ℕ)
  deriving DecidableEq

/-- The range end that `recovery_intent` answers with: a trigger that reaches past the
outstanding range, or that range again. -/
def rangeEnd (s : Sequencer) (nowNs : ℕ) : Option RangeEnd :=
  let again (p : ℕ) : Option RangeEnd :=
    if nowNs - s.lastIntentVt ≥ RESUGGEST_WINDOW_NS then some (.outstanding p) else none
  match s.intentTarget nowNs, s.pendingTo with
  | none, none => none
  | none, some p => again p
  | some t, none => some (.trigger t)
  | some t, some p =>
      if min t (wrappingAdd s.w MAX_WIRE_REQUEST) > p then some (.trigger t) else again p

/-- The number a range end stands for. -/
def RangeEnd.toExcl (w : ℕ) : RangeEnd → ℕ
  | .outstanding p => p
  | .trigger t => min t (wrappingAdd w MAX_WIRE_REQUEST)

/-- An outstanding range lies ahead and fits one request; a trigger lies ahead, and the
largest request from the watermark does not leave the sequence space. -/
def RangeEnd.Fits (w : ℕ) : RangeEnd → Prop
  | .outstanding p => w ≤ p ∧ p ≤ w + MAX_WIRE_REQUEST
  | .trigger t => w ≤ t ∧ w + MAX_WIRE_REQUEST < 2 ^ 64

instance (w : ℕ) : DecidablePred (RangeEnd.Fits w)
  | .outstanding p => inferInstanceAs (Decidable (w ≤ p ∧ p ≤ w + MAX_WIRE_REQUEST))
  | .trigger t => inferInstanceAs (Decidable (w ≤ t ∧ w + MAX_WIRE_REQUEST < 2 ^ 64))

theorem checkRecoveryIntent_answer (s : Sequencer) (nowNs : ℕ) :
    (s.checkRecoveryIntent nowNs).2 =
      (s.rangeEnd nowNs).map fun stop => ⟨s.w, stop.toExcl s.w⟩ := by
  unfold checkRecoveryIntent rangeEnd
  cases s.intentTarget nowNs with
  | none =>
      cases s.pendingTo with
      | none => rfl
      | some p =>
          dsimp only
          split <;> rfl
  | some t =>
      cases s.pendingTo with
      | none => rfl
      | some p =>
          dsimp only
          split
          · rfl
          · split <;> rfl

/-- A range end that fits is one that a 16-bit count reaches exactly. -/
theorem RangeEnd.fits_iff {w : ℕ} (hw : w < 2 ^ 64) (stop : RangeEnd) :
    stop.Fits w ↔ w + (stop.toExcl w - w) % 2 ^ 16 = stop.toExcl w := by
  have hmax : MAX_WIRE_REQUEST = 65535 := rfl
  have hexact : ∀ e, w ≤ e ∧ e ≤ w + 65535 ↔ w + (e - w) % 2 ^ 16 = e := by
    intro e
    omega
  cases stop with
  | outstanding p => exact hexact p
  | trigger t =>
      rw [← hexact, RangeEnd.Fits, RangeEnd.toExcl, hmax]
      by_cases htop : w + 65535 < 2 ^ 64
      · rw [wrappingAdd_of_lt htop]
        omega
      · have hwrap : wrappingAdd w 65535 < w := by
          rw [wrappingAdd, Nat.mod_eq_sub_mod (Nat.not_lt.mp htop), Nat.mod_eq_of_lt (by omega)]
          omega
        omega

theorem rangeEnd_outstanding {s : Sequencer} {nowNs p : ℕ}
    (h : s.rangeEnd nowNs = some (.outstanding p)) : s.pendingTo = some p := by
  unfold rangeEnd at h
  cases hp : s.pendingTo with
  | none => cases ht : s.intentTarget nowNs <;> simp [hp, ht] at h
  | some q =>
      cases ht : s.intentTarget nowNs with
      | none => simp_all
      | some t =>
          simp only [hp, ht] at h
          split_ifs at h
          · cases h
          · cases h
            rfl

/-- A trigger is answered only if it reaches past the outstanding range. -/
theorem rangeEnd_trigger {s : Sequencer} {nowNs t : ℕ}
    (h : s.rangeEnd nowNs = some (.trigger t)) : s.intentTarget nowNs = some t ∧
      ∀ p, s.pendingTo = some p → p < (RangeEnd.trigger t).toExcl s.w := by
  unfold rangeEnd at h
  cases ht : s.intentTarget nowNs with
  | none => cases hp : s.pendingTo <;> simp [hp, ht] at h
  | some u =>
      cases hp : s.pendingTo with
      | none =>
          simp only [hp, ht] at h
          cases h
          exact ⟨rfl, nofun⟩
      | some q =>
          simp only [hp, ht] at h
          split_ifs at h with hgt
          · cases h
            refine ⟨rfl, fun p hq => ?_⟩
            cases hq
            exact hgt
          · cases h

theorem rangeEnd_of_target {s : Sequencer} {nowNs t : ℕ} (ht : s.intentTarget nowNs = some t)
    (hp : s.pendingTo = none) : s.rangeEnd nowNs = some (.trigger t) := by
  unfold rangeEnd
  rw [ht, hp]

/-- Without an outstanding range only a trigger is answered. -/
theorem target_of_rangeEnd {s : Sequencer} {nowNs : ℕ} {stop : RangeEnd}
    (h : s.rangeEnd nowNs = some stop) (hp : s.pendingTo = none) :
    ∃ t, stop = .trigger t ∧ s.intentTarget nowNs = some t := by
  cases stop with
  | outstanding p => exact absurd (rangeEnd_outstanding h) (by rw [hp]; nofun)
  | trigger t => exact ⟨t, rfl, (rangeEnd_trigger h).1⟩

/-- Which trigger fires. -/
theorem intentTarget_cases {s : Sequencer} {nowNs t : ℕ} (h : s.intentTarget nowNs = some t) :
    (t = s.window.maxStaged ∧ s.w < t) ∨
      (t = s.window.maxStaged ∧ s.window.stagedCount > 0 ∧
        nowNs - s.progressVt ≥ TIME_TRIGGER_NS) ∨
      (t = s.hbSeq ∧ s.w < t ∧ nowNs - s.hbVt ≥ HB_TRIGGER_NS) := by
  unfold intentTarget at h
  split at h
  · rename_i hstaged
    cases h
    rcases hstaged with ⟨hw, -⟩ | ⟨hcount, hdue⟩
    · exact .inl ⟨rfl, hw⟩
    · exact .inr (.inl ⟨rfl, hcount, hdue⟩)
  · split at h
    · rename_i hhb
      cases h
      exact .inr (.inr ⟨rfl, hhb⟩)
    · cases h

/-- Only a trigger replaces the outstanding range. -/
theorem checkRecoveryIntent_pending (s : Sequencer) (nowNs : ℕ) :
    (s.checkRecoveryIntent nowNs).1.pendingTo =
      match s.rangeEnd nowNs with
      | some (.trigger t) => some ((RangeEnd.trigger t).toExcl s.w)
      | _ => s.pendingTo := by
  unfold checkRecoveryIntent rangeEnd
  cases s.intentTarget nowNs with
  | none =>
      cases hp : s.pendingTo with
      | none => exact hp
      | some p =>
          dsimp only
          split <;> exact hp
  | some t =>
      cases hp : s.pendingTo with
      | none => rfl
      | some p =>
          dsimp only
          split
          · rfl
          · split <;> exact hp

/-- The evaluation changes its own clock, the outstanding range and a counter. -/
theorem checkRecoveryIntent_keeps (s : Sequencer) (nowNs : ℕ) :
    (s.checkRecoveryIntent nowNs).1.window = s.window ∧
      (s.checkRecoveryIntent nowNs).1.hbSeq = s.hbSeq ∧
      (s.checkRecoveryIntent nowNs).1.hbVt = s.hbVt := by
  unfold checkRecoveryIntent
  cases s.intentTarget nowNs with
  | none =>
      cases s.pendingTo with
      | none => exact ⟨rfl, rfl, rfl⟩
      | some p =>
          dsimp only
          split <;> exact ⟨rfl, rfl, rfl⟩
  | some t =>
      cases s.pendingTo with
      | none => exact ⟨rfl, rfl, rfl⟩
      | some p =>
          dsimp only
          split
          · exact ⟨rfl, rfl, rfl⟩
          · split <;> exact ⟨rfl, rfl, rfl⟩

/-! ## Progress -/

/-- No data frame moves the watermark back. -/
theorem applyFrame_w_le {s : Sequencer} (h : s.Coherent) {frame : List UInt8} {hdr : Header}
    {first last : ℕ} (hf : DataFrame frame hdr first last) (hlast : s.w ≤ last) (nowNs : ℕ) :
    s.w ≤ (s.applyFrame frame hdr first last nowNs).1.w := by
  unfold applyFrame
  split
  · rename_i hfirst
    cases hwe : walkError frame hdr (s.w - first) with
    | some e => exact (w_of_core (applyContiguous_error hf hfirst hlast nowNs hwe).1).ge
    | none =>
        obtain ⟨win, -, -, hcore, -⟩ := applyContiguous_ok h hf hfirst hlast nowNs hwe
        have hle := h.buffer.le_firstMissing (last + 1)
        have hw := (checkGapClose_window { s with
          w := h.buffer.firstMissing (last + 1), window := win } s.gen).2.1
        rw [w_of_core hcore, hw]
        exact (Nat.le_succ_of_le hlast).trans hle
  · rename_i hfirst
    obtain ⟨win, c, -, hrun⟩ := applyGap_eq h hf (Nat.not_le.mp hfirst) nowNs
    have hw := (s.gapEvidence_window first).2.1
    rw [hrun]
    cases walkError frame hdr 0 with
    | some e => exact hw.ge
    | none =>
        have hretired := w_of_core (retirePending_core (recordReach
          { (s.gapEvidence first).1 with window := win, counters := c } last))
        exact (hretired.trans hw).ge

end Sequencer

end HftProj.Arbitrator
