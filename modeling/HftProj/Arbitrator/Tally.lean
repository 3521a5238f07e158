import HftProj.Arbitrator.Visits

/-!
# What becomes of the messages

Four counters say what became of the messages of data packets: emitted, duplicate,
staged, or beyond the window. Only the apply stage and the drain move them, in every
state and on every frame.
-/

namespace HftProj.Arbitrator

open HftProj.Lib HftProj.Protocol HftProj.Protocol.Moldudp64 HftProj.Protocol.Packet

/-- The four message counters. -/
@[ext]
structure Tally where
  emitted : ℕ
  dup : ℕ
  staged : ℕ
  beyond : ℕ
  deriving DecidableEq

def Counters.tally (c : Counters) : Tally :=
  ⟨c.msgsEmitted, c.dupMsgs, c.stagedMsgs, c.beyondWindowDropped⟩

/-- Draining delivers, and makes no other call. -/
theorem Window.drain_deliver (win : Window) (w gen : ℕ) :
    ∃ items, (win.drain w gen).2.2 = deliver ⟨gen⟩ items := by
  have hloop : ∀ n (win : Window) w, ∃ items, (drainLoop ⟨gen⟩ n win w).2.2 = deliver ⟨gen⟩ items := by
    intro n
    induction n with
    | zero => exact fun _ _ => ⟨[], rfl⟩
    | succ n ih =>
        intro win w
        unfold drainLoop
        dsimp only
        split
        · exact ⟨[], rfl⟩
        · obtain ⟨items, hitems⟩ := ih { win.setLen (w &&& WINDOW_MASK) 0 with stagedCount := n }
            (wrappingAdd w 1)
          exact ⟨(w, _) :: items, congrArg (_ :: ·) hitems⟩
  unfold drain
  split
  · exact ⟨[], rfl⟩
  · exact hloop _ win w

namespace Sequencer

def tally (s : Sequencer) : Tally := s.counters.tally

section Tally

variable (s : Sequencer)

theorem gapEvidence_tally (x : ℕ) : (s.gapEvidence x).1.tally = s.tally := by
  unfold gapEvidence
  split
  · rfl
  · split <;> rfl

theorem checkGapClose_tally (gen : ℕ) : (s.checkGapClose gen).1.tally = s.tally := by
  unfold checkGapClose
  split <;> rfl

theorem retirePending_tally : s.retirePending.tally = s.tally := by
  unfold retirePending
  split
  · split <;> rfl
  · rfl

theorem handleHeartbeat_tally (seq nowNs : ℕ) :
    (s.handleHeartbeat seq nowNs).1.tally = s.tally := by
  unfold handleHeartbeat
  dsimp only [count]
  split_ifs
  · rfl
  · rfl
  · rfl
  · exact gapEvidence_tally _ seq
  · rfl

theorem handleEos_tally (hdr : Header) : (s.handleEos hdr).1.tally = s.tally := by
  unfold handleEos
  dsimp only [count]
  split_ifs <;> rfl

theorem sealDead_tally (reason : DeadReason) : (s.sealDead reason).1.tally = s.tally := by
  unfold sealDead
  split <;> rfl

theorem checkRecoveryIntent_tally (nowNs : ℕ) :
    (s.checkRecoveryIntent nowNs).1.tally = s.tally := by
  unfold checkRecoveryIntent
  split
  · split
    · rfl
    · split <;> rfl
  · dsimp only
    split
    · rfl
    · split
      · rfl
      · split <;> rfl

theorem countPacket_tally (frame : List UInt8) (feed : FeedId) :
    (s.countPacket frame feed).tally = s.tally := by
  unfold countPacket Counters.feedMut
  dsimp only [count, tally]
  split <;> rfl

theorem dispatchSession_tally (next : SessionId) :
    (s.dispatchSession next).1.tally = s.tally := by
  have hdispatch : (s.sessionDispatch next).1.tally = s.tally := by
    unfold sessionDispatch
    dsimp only [tally]
    split_ifs <;> rfl
  unfold dispatchSession
  dsimp only
  split
  · exact hdispatch
  · exact hdispatch

/-- Every call of the drain is a message, and counted as one. -/
theorem drainWindow_tally (gen nowNs : ℕ) :
    (s.drainWindow gen nowNs).1.tally =
      { s.tally with emitted := s.tally.emitted + (messages (s.drainWindow gen nowNs).2).length } := by
  obtain ⟨items, hcalls⟩ := s.window.drain_deliver s.w gen
  have hlen : (messages (s.window.drain s.w gen).2.2).length =
      (s.window.drain s.w gen).2.2.length := by
    rw [hcalls, messages_deliver, deliver, List.length_map]
  unfold drainWindow tally
  dsimp only
  rw [hlen]
  rfl

theorem messages_checkGapClose (gen : ℕ) : messages (s.checkGapClose gen).2 = [] := by
  rcases s.checkGapClose_calls gen with h | h <;> rw [h] <;> rfl

theorem messages_gapEvidence (x : ℕ) : messages (s.gapEvidence x).2 = [] := by
  rcases s.gapEvidence_calls x with h | h <;> rw [h] <;> rfl

/-- What follows a walk drains, and does nothing else to the counts. -/
theorem drained_tally (r : Emitting) (g : Sequencer → ℕ) {t : Tally}
    (hr : r.1.tally = { t with emitted := t.emitted + (messages r.2).length }) :
    (r.andThen fun s => s.checkGapClose (g s)).1.tally =
      { t with emitted := t.emitted +
        (messages (r.andThen fun s => s.checkGapClose (g s)).2).length } := by
  rw [Traced.andThen_fst, Traced.andThen_snd, checkGapClose_tally, messages_append,
    messages_checkGapClose, List.append_nil, hr]

theorem advance_tally (last nowNs : ℕ) :
    (s.advance last nowNs).1.tally =
      { s.tally with emitted := s.tally.emitted + (messages (s.advance last nowNs).2).length } := by
  rw [advance_eq]
  exact drained_tally _ (fun _ => s.gen) ((s.clearBehind _ nowNs).drainWindow_tally s.gen nowNs)

theorem settle_tally (nowNs : ℕ) :
    (s.settle nowNs).1.tally =
      { s.tally with emitted := s.tally.emitted + (messages (s.settle nowNs).2).length } :=
  drained_tally _ (fun s => s.gen) (s.drainWindow_tally s.gen nowNs)

end Tally

/-- Every block of a staging walk is staged or dropped beyond the window. -/
theorem stageAll_tally (w clamp : ℕ) (items : List (ℕ × List UInt8)) (win : Window)
    (c : Counters) :
    let c' := (items.foldl (fun a b => stageBlock w clamp a b.1 b.2) (win, c)).2
    c'.msgsEmitted = c.msgsEmitted ∧ c'.dupMsgs = c.dupMsgs ∧
      c'.stagedMsgs + c'.beyondWindowDropped =
        c.stagedMsgs + c.beyondWindowDropped + items.length := by
  induction items generalizing win c with
  | nil => exact ⟨rfl, rfl, rfl⟩
  | cons item items ih =>
      have hstep : ∀ r : Window × Counters, r.2.msgsEmitted = c.msgsEmitted →
          r.2.dupMsgs = c.dupMsgs → r.2.stagedMsgs + r.2.beyondWindowDropped =
            c.stagedMsgs + c.beyondWindowDropped + 1 →
          let c' := (items.foldl (fun a b => stageBlock w clamp a b.1 b.2) r).2
          c'.msgsEmitted = c.msgsEmitted ∧ c'.dupMsgs = c.dupMsgs ∧
            c'.stagedMsgs + c'.beyondWindowDropped =
              c.stagedMsgs + c.beyondWindowDropped + (item :: items).length := by
        rintro ⟨win', c'⟩ h₁ h₂ h₃
        obtain ⟨i₁, i₂, i₃⟩ := ih win' c'
        dsimp only at h₁ h₂ h₃
        rw [List.length_cons]
        exact ⟨i₁.trans h₁, i₂.trans h₂, by omega⟩
      rw [List.foldl_cons]
      apply hstep
      all_goals
        unfold stageBlock
        dsimp only
        split_ifs
      all_goals first | rfl | (dsimp only; omega)

section Frame

variable {frame : List UInt8} {hdr : Header} (s : Sequencer)
  (hhdr : parseHeader frame = .ok hdr)

include hhdr in
/-- Behind or at the watermark the blocks are duplicates or emitted, up to an invalid one. -/
theorem applyContiguous_tally (last nowNs : ℕ) :
    (s.applyContiguous frame hdr hdr.seq last nowNs).1.tally =
      { s.tally with
        emitted := s.tally.emitted +
          (messages (s.applyContiguous frame hdr hdr.seq last nowNs).2).length
        dup := s.tally.dup + min (wrappingSub s.w hdr.seq) hdr.count } := by
  rw [applyContiguous_walk s hhdr]
  dsimp only
  generalize min (wrappingSub s.w hdr.seq) hdr.count = skip
  generalize validPrefix ((headerBlocks frame hdr).drop skip) = items
  cases walkError frame hdr skip with
  | some e =>
      dsimp only
      rw [messages_deliver]
      rfl
  | none =>
      dsimp only
      rw [retirePending_tally, advance_tally, messages_append, messages_deliver, List.length_append,
        ← Nat.add_assoc]
      rfl

include hhdr in
/-- Ahead of the watermark the blocks are staged or dropped, up to an invalid one. -/
theorem applyGap_tally (last nowNs : ℕ) :
    let r := s.applyGap frame hdr hdr.seq last nowNs
    r.1.tally.emitted = s.tally.emitted + (messages r.2).length ∧
      r.1.tally.dup = s.tally.dup ∧
      r.1.tally.staged + r.1.tally.beyond =
        s.tally.staged + s.tally.beyond + (validPrefix (headerBlocks frame hdr)).length := by
  dsimp only
  rw [applyGap_walk s hhdr, Traced.andThen_fst, Traced.andThen_snd, messages_append,
    messages_gapEvidence, List.nil_append]
  rw [← s.gapEvidence_tally hdr.seq]
  generalize (s.gapEvidence hdr.seq).1 = t
  dsimp only
  generalize (if t.mutation = .offByOneClamp then wrappingAdd t.w (WINDOW_SLOTS / 2)
    else wrappingAdd t.w WINDOW_SLOTS) = clamp
  obtain ⟨h₁, h₂, h₃⟩ := stageAll_tally t.w clamp (validPrefix (headerBlocks frame hdr)) t.window
    t.counters
  generalize (validPrefix (headerBlocks frame hdr)).foldl
    (fun a b => stageBlock t.w clamp a b.1 b.2) (t.window, t.counters) = staged at h₁ h₂ h₃ ⊢
  cases walkError frame hdr 0 with
  | some e => exact ⟨h₁, h₂, h₃⟩
  | none =>
      dsimp only
      have hset := (recordReach { t with window := staged.1, counters := staged.2 }
        last).settle_tally nowNs
      rw [retirePending_tally, hset]
      exact ⟨congrArg (· + _) h₁, h₂, h₃⟩

end Frame

end Sequencer

end HftProj.Arbitrator
