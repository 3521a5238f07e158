import HftProj.Arbitrator.Tally

/-!
# The apply stage refines a reorder buffer

On an accepted data packet the apply stage of a coherent state does what offering the
packet's payloads to the state's reorder buffer does, and delivers what that releases.
The control packets, recovery intents and the seal leave the buffer alone.
-/

namespace HftProj.Arbitrator

open HftProj.Lib HftProj.Protocol HftProj.Protocol.Moldudp64 HftProj.Protocol.Packet

namespace Sequencer

/-- The coherent state `s'` shows the buffer `b`. -/
structure Shows (s' : Sequencer) (b : ReorderBuffer (List UInt8) WINDOW_SLOTS) : Prop where
  coherent : s'.Coherent
  w : s'.w = b.next
  held : s'.held = b.held

theorem Coherent.shows {s : Sequencer} (h : s.Coherent) : s.Shows h.buffer := ⟨h, rfl, rfl⟩

theorem Shows.buffer {s : Sequencer} {b : ReorderBuffer (List UInt8) WINDOW_SLOTS}
    (h : s.Shows b) : h.coherent.buffer = b := ReorderBuffer.ext h.w h.held

theorem Shows.of_core {s t : Sequencer} {b : ReorderBuffer (List UInt8) WINDOW_SLOTS}
    (h : s.Shows b) (ht : t.core = s.core) : t.Shows b where
  coherent := h.coherent.of_core ht
  w := (w_of_core ht).trans h.w
  held := (held_of_core ht).trans h.held

/-- What `ingestData` does, by case. -/
theorem ingestData_cases (s : Sequencer) (frame : List UInt8) (hdr : Header) (feed : FeedId)
    (nowNs : ℕ) :
    (s.state = .ended ∧
      s.ingestData frame hdr feed nowNs = (s.count Counters.recordDataAfterEos, [])) ∨
    (s.state ≠ .ended ∧ hdr.span = none ∧
      s.ingestData frame hdr feed nowNs = (s.count Counters.recordSeqOverflow, [])) ∨
    (s.state ≠ .ended ∧ ∃ first last, hdr.span = some (first, last) ∧
      ((s.state = .init ∧ s.ingestData frame hdr feed nowNs =
          (s.anchorAt first nowNs).applyFrame frame hdr first last nowNs) ∨
        (s.state ≠ .init ∧ last < s.w ∧ s.ingestData frame hdr feed nowNs =
          (s.count fun c => c.recordDuplicate feed hdr.count, [])) ∨
        (s.state ≠ .init ∧ s.w ≤ last ∧ s.ingestData frame hdr feed nowNs =
          s.applyFrame frame hdr first last nowNs))) := by
  unfold ingestData
  by_cases hended : s.state = .ended
  · exact Or.inl ⟨hended, if_pos hended⟩
  · rw [if_neg hended]
    cases hdr.span with
    | none => exact Or.inr (Or.inl ⟨hended, rfl, rfl⟩)
    | some span =>
        refine Or.inr (Or.inr ⟨hended, span.1, span.2, rfl, ?_⟩)
        by_cases hinit : s.state = .init
        · exact Or.inl ⟨hinit, if_pos hinit⟩
        · by_cases hdup : span.2 < s.w
          · exact Or.inr (Or.inl ⟨hinit, hdup, (if_neg hinit).trans (if_pos hdup)⟩)
          · exact Or.inr (Or.inr ⟨hinit, Nat.le_of_not_lt hdup,
              (if_neg hinit).trans (if_neg hdup)⟩)

section Data

variable {frame : List UInt8} {hdr : Header} {first last : ℕ} {s : Sequencer}
  {b : ReorderBuffer (List UInt8) WINDOW_SLOTS}

theorem applyContiguous_offer (h : s.Shows b) (hf : DataFrame frame hdr first last)
    (hok : ∀ skip, walkError frame hdr skip = none) (hfirst : first ≤ s.w) (hlast : s.w ≤ last)
    (nowNs : ℕ) :
    (s.applyContiguous frame hdr first last nowNs).1.Shows
        (b.offer first (payloads frame hdr)).1 ∧
      messages (s.applyContiguous frame hdr first last nowNs).2 =
        (b.offer first (payloads frame hdr)).2 := by
  have hlen := hf.length_eq (hok 0)
  have hcoh := (applyContiguous_acts h.coherent hf hfirst hlast nowNs).coherent h.coherent
  obtain ⟨win, -, hheld, hcore, hcalls⟩ :=
    applyContiguous_ok h.coherent hf hfirst hlast nowNs (hok _)
  have hoffer : b.offer first (payloads frame hdr) =
      (b.skipTo (first + (payloads frame hdr).length) (by rw [← h.w]; omega),
        (number first (payloads frame hdr)).drop (b.next - first) ++
          b.released (first + (payloads frame hdr).length)) := by
    rw [ReorderBuffer.offer, dif_neg (by rw [← h.w]; omega), if_pos (by rw [← h.w]; omega)]
  simp only [h.buffer, ← hlen] at hheld hcore hcalls
  rw [hoffer]
  obtain ⟨hwin, hw, -⟩ := checkGapClose_window { s with
    w := b.firstMissing (first + (payloads frame hdr).length), window := win } s.gen
  refine ⟨⟨hcoh, (w_of_core hcore).trans hw, ?_⟩, ?_⟩
  · rw [held_of_core hcore, held, hwin, hw]
    exact hheld
  · have hclose : messages (({ s with
        w := b.firstMissing (first + (payloads frame hdr).length),
        window := win } : Sequencer).checkGapClose s.gen).2 = [] := by
      rcases checkGapClose_calls { s with
        w := b.firstMissing (first + (payloads frame hdr).length), window := win } s.gen
        with hc | hc <;> rw [hc] <;> rfl
    rw [hcalls, messages_append, messages_append, messages_deliver, messages_deliver, hclose,
      List.append_nil, hf.blocks, congrArg (· - first) h.w]

theorem applyGap_offer (h : s.Shows b) (hf : DataFrame frame hdr first last)
    (hok : ∀ skip, walkError frame hdr skip = none) (hfirst : s.w < first) (nowNs : ℕ) :
    (s.applyGap frame hdr first last nowNs).1.Shows (b.offer first (payloads frame hdr)).1 ∧
      messages (s.applyGap frame hdr first last nowNs).2 =
        (b.offer first (payloads frame hdr)).2 := by
  have hcoh := (applyGap_acts h.coherent hf hfirst nowNs).coherent h.coherent
  obtain ⟨win, c, hstaged, hrun⟩ := applyGap_eq h.coherent hf hfirst nowNs
  obtain ⟨-, hw, -⟩ := s.gapEvidence_window first
  have hw' := h.w
  have hoffer : b.offer first (payloads frame hdr) =
      (b.holdAll (number first (payloads frame hdr)), []) := by
    rw [ReorderBuffer.offer, dif_neg (by omega), if_neg (by omega)]
  have hvalid := validPrefix_eq_self (walkError_none (hok 0)).2
  rw [List.drop_zero] at hvalid
  have hheld := hstaged.held
  rw [h.buffer, hvalid, hf.blocks] at hheld
  have hwr := retirePending_core (recordReach
    { (s.gapEvidence first).1 with window := win, counters := c } last)
  obtain ⟨hrw, hrheld, -⟩ := recordReach_eq
    { (s.gapEvidence first).1 with window := win, counters := c } last
  simp only [hrun, hok 0] at hcoh ⊢
  rw [hoffer]
  refine ⟨⟨hcoh, ?_, ?_⟩, ?_⟩
  · rw [w_of_core hwr, hrw, ReorderBuffer.holdAll_next, ← h.w]
    exact hw
  · rw [held_of_core hwr, hrheld, ← hheld, ← h.w, ← hw]
    rfl
  · rcases s.gapEvidence_calls first with hc | hc <;> rw [hc] <;> rfl

theorem applyFrame_offer (h : s.Shows b) (hf : DataFrame frame hdr first last)
    (hok : ∀ skip, walkError frame hdr skip = none) (hlast : s.w ≤ last) (nowNs : ℕ) :
    (s.applyFrame frame hdr first last nowNs).1.Shows (b.offer first (payloads frame hdr)).1 ∧
      messages (s.applyFrame frame hdr first last nowNs).2 =
        (b.offer first (payloads frame hdr)).2 := by
  unfold applyFrame
  split
  · rename_i hfirst
    exact applyContiguous_offer h hf hok hfirst hlast nowNs
  · rename_i hfirst
    exact applyGap_offer h hf hok (Nat.lt_of_not_le hfirst) nowNs

end Data

section Control

variable {s : Sequencer} {b : ReorderBuffer (List UInt8) WINDOW_SLOTS}

theorem gapEvidence_shows (h : s.Shows b) {x : ℕ} (hx : s.w < x) :
    (s.gapEvidence x).1.Shows b := by
  obtain ⟨hwin, hw, -⟩ := s.gapEvidence_window x
  refine ⟨h.coherent.gapEvidence hx, hw.trans h.w, ?_⟩
  rw [held, hwin, hw]
  exact h.held

theorem handleHeartbeat_shows (h : s.Shows b) (seq nowNs : ℕ) :
    (s.handleHeartbeat seq nowNs).1.Shows b ∧
      (s.handleHeartbeat seq nowNs).1.session = s.session ∧
      messages (s.handleHeartbeat seq nowNs).2 = [] := by
  refine ⟨?_, ?_, ?_⟩
  · unfold handleHeartbeat
    dsimp only [count]
    split_ifs with _ _ _ hseq
    · exact h.of_core rfl
    · exact h.of_core rfl
    · exact h.of_core rfl
    · have hnoted : Shows { s with
          counters := { s.counters with heartbeats := s.counters.heartbeats + 1 }
          hbSeq := seq
          hbVt := nowNs } b := h.of_core rfl
      exact gapEvidence_shows hnoted hseq
    · exact h.of_core rfl
  · unfold handleHeartbeat
    dsimp only [count]
    split_ifs
    · rfl
    · rfl
    · rfl
    · exact gapEvidence_session _ seq
    · rfl
  · rcases s.handleHeartbeat_calls seq nowNs with hc | hc <;> rw [hc] <;> rfl

/-- A heartbeat keeps `init`, `ended` and `dead`, and opens a gap at most elsewhere. -/
theorem handleHeartbeat_state (s : Sequencer) (seq nowNs : ℕ) :
    (s.handleHeartbeat seq nowNs).1.state = s.state ∨
      (s.state ≠ .init ∧ s.state ≠ .ended ∧ s.state ≠ .dead ∧
        (s.handleHeartbeat seq nowNs).1.state = .gap) := by
  unfold handleHeartbeat
  dsimp only [count]
  split_ifs with h₁ h₂ h₃ hseq
  · exact Or.inl rfl
  · exact Or.inl rfl
  · exact Or.inl rfl
  · exact (gapEvidence_state _ seq).imp id fun hg => ⟨h₂, h₃, h₁, hg⟩
  · exact Or.inl rfl

theorem handleEos_core (s : Sequencer) (hdr : Header) :
    (s.handleEos hdr).1.core = core { s with state := (s.handleEos hdr).1.state } := by
  unfold handleEos
  dsimp only [count]
  split_ifs <;> rfl

/-- What the state becomes at the end-of-session packet. -/
theorem handleEos_state (s : Sequencer) (hdr : Header) :
    (s.state = .init ∧ (s.handleEos hdr).1.state = .ended) ∨
      (s.state ≠ .init ∧ (s.handleEos hdr).1.state = s.state) ∨
      (s.state ≠ .init ∧ s.state ≠ .ended ∧ s.state ≠ .dead ∧
        ((s.handleEos hdr).1.state = .ended ∨ (s.handleEos hdr).1.state = .eosPersist)) := by
  unfold handleEos
  dsimp only [count]
  split_ifs with h₁ h₂ h₃ h₄ h₅ h₆ <;> simp_all

theorem handleEos_shows (h : s.Shows b) (hdr : Header) :
    (s.handleEos hdr).1.Shows b ∧ (s.handleEos hdr).1.session = s.session ∧
      messages (s.handleEos hdr).2 = [] := by
  have hcore := s.handleEos_core hdr
  have hacts : Acts (fun _ _ => False) s _ _ := s.handleEos_acts hdr
  have hcoh := hacts.coherent h.coherent
  refine ⟨⟨hcoh, ?_, ?_⟩, (session_of_core hcore :), ?_⟩
  · exact (w_of_core hcore).trans h.w
  · exact (held_of_core hcore).trans h.held
  · rcases s.handleEos_calls hdr with hc | hc <;> rw [hc] <;> rfl

theorem sealDead_shows (h : s.Shows b) (reason : DeadReason) :
    (s.sealDead reason).1.Shows b ∧ (s.sealDead reason).1.session = s.session ∧
      (s.sealDead reason).1.state = .dead ∧ messages (s.sealDead reason).2 = [] := by
  have hacts : Acts (fun _ _ => False) s _ _ := s.sealDead_acts reason
  have hcoh := hacts.coherent h.coherent
  unfold sealDead at hcoh ⊢
  split_ifs at hcoh ⊢ with hd
  · exact ⟨⟨hcoh, h.w, h.held⟩, rfl, rfl, rfl⟩
  · exact ⟨h, rfl, not_not.mp hd, rfl⟩

end Control

/-! ## Dropped blocks -/

/-- Blocks that fell outside the window so far. -/
def dropped (s : Sequencer) : ℕ := s.counters.beyondWindowDropped

theorem dropped_of_tally {s t : Sequencer} (h : t.tally = s.tally) : t.dropped = s.dropped :=
  congrArg Tally.beyond h

/-- An accepted data packet drops its blocks beyond the window, if it is ahead of the
watermark, and nothing else. -/
theorem applyFrame_dropped {s : Sequencer} (h : s.Coherent) {frame : List UInt8} {hdr : Header}
    {first last : ℕ} (hf : DataFrame frame hdr first last)
    (hok : ∀ skip, walkError frame hdr skip = none) (nowNs : ℕ) :
    (s.applyFrame frame hdr first last nowNs).1.dropped =
      s.dropped + if first ≤ s.w then 0 else beyond s.w (number first (payloads frame hdr)) := by
  unfold applyFrame
  split
  · rw [hf.bounds.1]
    exact congrArg Tally.beyond (s.applyContiguous_tally hf.parsed last nowNs)
  · rename_i hfirst
    obtain ⟨win, c, hstaged, hrun⟩ := applyGap_eq h hf (Nat.lt_of_not_le hfirst) nowNs
    obtain ⟨n, hn⟩ := hstaged.counters
    have hvalid := validPrefix_eq_self (walkError_none (hok 0)).2
    rw [List.drop_zero] at hvalid
    rw [hvalid, hf.blocks, h.buffer_next] at hn
    simp only at hn
    simp only [hrun, hok 0]
    rw [dropped_of_tally (retirePending_tally _)]
    change c.beyondWindowDropped = _
    rw [hn]
    exact congrArg (· + _) (dropped_of_tally (s.gapEvidence_tally first))

/-- No blocks dropped means that none was beyond the window. -/
theorem beyond_eq_zero {w : ℕ} {items : List (ℕ × List UInt8)} (h : beyond w items = 0) :
    ∀ i ∈ items, i.1 < w + WINDOW_SLOTS := by
  intro i hi
  have := List.countP_eq_zero.mp h i hi
  simpa using this

end Sequencer

end HftProj.Arbitrator
