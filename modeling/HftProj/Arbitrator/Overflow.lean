import HftProj.Arbitrator.Acts

/-!
# The top of the sequence space

Watermarks are 64-bit values in every state, since every sum that reaches one wraps.
-/

namespace HftProj.Arbitrator

open HftProj.Lib HftProj.Protocol HftProj.Protocol.Moldudp64 HftProj.Protocol.Packet

theorem Window.drain_w_lt (win : Window) {w : ℕ} (hw : w < 2 ^ 64) (gen : ℕ) :
    (win.drain w gen).2.1 < 2 ^ 64 := by
  have hloop : ∀ n (win : Window) w, w < 2 ^ 64 → (drainLoop ⟨gen⟩ n win w).2.1 < 2 ^ 64 := by
    intro n
    induction n with
    | zero => exact fun _ _ h => h
    | succ n ih =>
        intro win w h
        unfold drainLoop
        dsimp only
        split
        · exact h
        · exact ih _ _ (wrappingAdd_lt w 1)
  unfold drain
  split
  · exact hw
  · exact hloop _ win w hw

namespace Sequencer

section Watermark

variable (s : Sequencer)

theorem gapEvidence_w (x : ℕ) : (s.gapEvidence x).1.w = s.w := (s.gapEvidence_window x).2.1

theorem checkGapClose_w (gen : ℕ) : (s.checkGapClose gen).1.w = s.w := by
  unfold checkGapClose
  split <;> rfl

theorem retirePending_w : s.retirePending.w = s.w := w_of_core s.retirePending_core

theorem countPacket_w (frame : List UInt8) (feed : FeedId) :
    (s.countPacket frame feed).w = s.w := rfl

theorem handleHeartbeat_w (seq nowNs : ℕ) : (s.handleHeartbeat seq nowNs).1.w = s.w := by
  unfold handleHeartbeat
  dsimp only [count]
  split_ifs
  · rfl
  · rfl
  · rfl
  · exact gapEvidence_w _ seq
  · rfl

theorem handleEos_w (hdr : Header) : (s.handleEos hdr).1.w = s.w := by
  unfold handleEos
  dsimp only [count]
  split_ifs <;> rfl

theorem sealDead_w (reason : DeadReason) : (s.sealDead reason).1.w = s.w := by
  unfold sealDead
  split <;> rfl

theorem checkRecoveryIntent_w (nowNs : ℕ) : (s.checkRecoveryIntent nowNs).1.w = s.w :=
  w_of_core (s.checkRecoveryIntent_core nowNs)

theorem dispatchSession_w (next : SessionId) : (s.dispatchSession next).1.w = s.w := by
  have hdispatch : (s.sessionDispatch next).1.w = s.w := by
    unfold sessionDispatch
    dsimp only
    split_ifs <;> rfl
  unfold dispatchSession
  dsimp only
  split
  · exact hdispatch
  · exact hdispatch

variable {s}

theorem drainWindow_w_lt (hw : s.w < 2 ^ 64) (gen nowNs : ℕ) :
    (s.drainWindow gen nowNs).1.w < 2 ^ 64 := s.window.drain_w_lt hw gen

theorem advance_w_lt (s : Sequencer) (last nowNs : ℕ) : (s.advance last nowNs).1.w < 2 ^ 64 := by
  rw [advance_eq, Traced.andThen_fst, checkGapClose_w]
  exact drainWindow_w_lt (wrappingAdd_lt last 1) _ _

theorem settle_w_lt (hw : s.w < 2 ^ 64) (nowNs : ℕ) : (s.settle nowNs).1.w < 2 ^ 64 := by
  rw [settle, Traced.andThen_fst, checkGapClose_w]
  exact drainWindow_w_lt hw _ nowNs

theorem applyFrame_w_lt (hw : s.w < 2 ^ 64) (frame : List UInt8) (hdr : Header)
    (first last nowNs : ℕ) : (s.applyFrame frame hdr first last nowNs).1.w < 2 ^ 64 := by
  unfold applyFrame
  split
  · unfold applyContiguous
    dsimp only
    split
    · dsimp only [count]
      split <;> exact hw
    · rw [retirePending_w]
      exact advance_w_lt _ last nowNs
  · rw [← s.gapEvidence_w first] at hw
    unfold applyGap
    rw [Traced.andThen_fst]
    dsimp only
    split
    · exact hw
    · rw [retirePending_w]
      apply settle_w_lt
      exact hw

theorem ingestKind_w_lt (hw : s.w < 2 ^ 64) {frame : List UInt8} {hdr : Header}
    (hhdr : parseHeader frame = .ok hdr) (feed : FeedId) (nowNs : ℕ) :
    (s.ingestKind frame hdr feed nowNs).1.w < 2 ^ 64 := by
  unfold ingestKind
  split
  · rw [handleHeartbeat_w]
    exact hw
  split
  · dsimp only
    rw [handleEos_w]
    split <;> exact hw
  unfold ingestData
  split
  · exact hw
  cases hspan : hdr.span with
  | none => exact hw
  | some span =>
      have hfirst : span.1 < 2 ^ 64 := by
        rw [(Header.span_eq_some hspan).1]
        exact (parseHeader_bounds hhdr).1
      dsimp only
      split
      · exact applyFrame_w_lt hfirst _ _ _ _ _
      split
      · exact hw
      · exact applyFrame_w_lt hw _ _ _ _ _

/-- The watermark is a 64-bit value after every call. -/
theorem step_w_lt (hw : s.w < 2 ^ 64) (i : Input) : (s.step i).1.w < 2 ^ 64 := by
  cases i with
  | frame bytes feed nowNs =>
      change (s.ingest bytes feed nowNs).1.w < 2 ^ 64
      unfold ingest
      dsimp only
      split
      · exact hw
      cases hhdr : parseHeader bytes with
      | error e => exact hw
      | ok hdr =>
          dsimp only
          split
          · exact hw
          · rw [Traced.andThen_fst]
            refine ingestKind_w_lt ?_ hhdr feed nowNs
            rw [dispatchSession_w]
            exact hw
  | recoveryIntent nowNs => exact (s.checkRecoveryIntent_w nowNs).trans_lt hw
  | sealDead reason => exact (s.sealDead_w reason).trans_lt hw

end Watermark

end Sequencer

end HftProj.Arbitrator
