import HftProj.Arbitrator.Visits
import HftProj.Protocol.Encode

/-!
# Gap, window and watermark between calls

Coherence read off at the quiescent points: a gap is open exactly while its
evidence is ahead of the watermark, a staged message keeps a gap open, and every
slot of the ring holds a payload carried for the one number the slot stands for.
-/

namespace HftProj.Arbitrator

open HftProj.Lib HftProj.Protocol HftProj.Protocol.Moldudp64 HftProj.Protocol.Packet

namespace Sequencer

/-- The precondition of the batched apply loop. -/
def steadyReady (s : Sequencer) : Bool :=
  s.sessionLive && s.state == .contig && s.window.stagedCount == 0 && !s.gapActive &&
    s.pendingTo.isNone

/-! ## Closing a gap -/

/-- A gap that closes does so in the last call of `r`, made over an empty window. -/
def ClosesEmpty (r : Emitting) : Prop :=
  ∀ gen at_, .onEvent (.reAnchored gen at_) ∈ r.2 →
    ∃ (t : Sequencer) (pre : List SinkCall), t.window.stagedCount = 0 ∧ t.w = at_ ∧
      (t.checkGapClose gen).2 = [.onEvent (.reAnchored gen at_)] ∧
      r.2 = pre ++ (t.checkGapClose gen).2 ∧ r.1.core = (t.checkGapClose gen).1.core

theorem closesEmpty_of_none {r : Emitting}
    (h : ∀ gen at_, .onEvent (.reAnchored gen at_) ∉ r.2) : ClosesEmpty r :=
  fun gen at_ hmem => absurd hmem (h gen at_)

theorem ClosesEmpty.prepend {r : Emitting} (hr : ClosesEmpty r) {calls : List SinkCall}
    (h : ∀ gen at_, .onEvent (.reAnchored gen at_) ∉ calls) : ClosesEmpty (r.1, calls ++ r.2) := by
  intro gen at_ hmem
  rcases List.mem_append.mp hmem with hc | hc
  · exact absurd hc (h gen at_)
  · obtain ⟨t, pre, h₁, h₂, h₃, h₄, h₅⟩ := hr gen at_ hc
    exact ⟨t, calls ++ pre, h₁, h₂, h₃, by rw [h₄, List.append_assoc], h₅⟩

theorem not_reAnchored_deliver {proof : LiveFeedProof} {items : List (ℕ × List UInt8)}
    (gen at_ : ℕ) : .onEvent (.reAnchored gen at_) ∉ deliver proof items := by
  intro h
  obtain ⟨i, _, hi⟩ := List.mem_map.mp h
  cases hi

theorem not_reAnchored_gapEvidence (s : Sequencer) (x gen at_ : ℕ) :
    .onEvent (.reAnchored gen at_) ∉ (s.gapEvidence x).2 := by
  rcases s.gapEvidence_calls x with h | h <;> simp [h]

section Frame

variable {frame : List UInt8} {hdr : Header} {first last : ℕ}

theorem applyContiguous_closesEmpty {s : Sequencer} (h : s.Coherent)
    (hf : DataFrame frame hdr first last) (hfirst : first ≤ s.w) (hlast : s.w ≤ last)
    (nowNs : ℕ) : ClosesEmpty (s.applyContiguous frame hdr first last nowNs) := by
  have hcoh := (applyContiguous_acts h hf hfirst hlast nowNs).coherent h
  cases hw : walkError frame hdr (s.w - first) with
  | some e =>
      obtain ⟨-, hcalls⟩ := applyContiguous_error hf hfirst hlast nowNs hw
      apply closesEmpty_of_none
      intro gen at_
      rw [hcalls]
      exact not_reAnchored_deliver gen at_
  | none =>
      obtain ⟨win, hsound, hheld, hcore, hcalls⟩ :=
        applyContiguous_ok h hf hfirst hlast nowNs hw
      intro gen at_ hmem
      set t : Sequencer := { s with w := h.buffer.firstMissing (last + 1), window := win } with ht
      rw [hcalls] at hmem ⊢
      rcases List.mem_append.mp hmem with hm | hm
      · exact absurd hm (not_reAnchored_deliver gen at_)
      rcases List.mem_append.mp hm with hm | hm
      · exact absurd hm (not_reAnchored_deliver gen at_)
      have hcall : (t.checkGapClose s.gen).2 = [.onEvent (.reAnchored gen at_)] ∧
          gen = s.gen ∧ at_ = t.w := by
        rcases t.checkGapClose_calls s.gen with hr | hr
        · simp [hr] at hm
        · rw [hr] at hm ⊢
          simp only [List.mem_singleton, SinkCall.onEvent.injEq, Event.reAnchored.injEq] at hm
          rw [hm.1, hm.2]
          exact ⟨rfl, rfl, rfl⟩
      obtain ⟨hcall, rfl, rfl⟩ := hcall
      -- the event is emitted only when the gap closes, and no gap means nothing staged
      have hclosed : (t.checkGapClose s.gen).1.gapActive = false := by
        unfold checkGapClose at hcall ⊢
        split at hcall
        · rw [if_pos ‹_›]
        · cases hcall
      have hempty := hcoh.stagedCount_eq_zero ((gapActive_of_core hcore).trans hclosed)
      rw [stagedCount_of_core hcore, (t.checkGapClose_window s.gen).1] at hempty
      exact ⟨t, _, hempty, rfl, hcall, by rw [List.append_assoc], hcore⟩

theorem applyFrame_closesEmpty {s : Sequencer} (h : s.Coherent)
    (hf : DataFrame frame hdr first last) (hlast : s.w ≤ last) (nowNs : ℕ) :
    ClosesEmpty (s.applyFrame frame hdr first last nowNs) := by
  unfold applyFrame
  split
  · rename_i hfirst
    exact applyContiguous_closesEmpty h hf hfirst hlast nowNs
  · rename_i hfirst
    obtain ⟨win, c, -, hrun⟩ := applyGap_eq h hf (Nat.lt_of_not_le hfirst) nowNs
    apply closesEmpty_of_none
    intro gen at_
    rw [hrun]
    split <;> exact s.not_reAnchored_gapEvidence first gen at_

theorem ingestKind_closesEmpty {s : Sequencer} (h : s.Coherent)
    (hhdr : parseHeader frame = .ok hdr) (hr : hdr.seq < 2 ^ 64 - 2 ^ 17) (feed : FeedId)
    (nowNs : ℕ) : ClosesEmpty (s.ingestKind frame hdr feed nowNs) := by
  have hnone : ∀ t : Sequencer, ClosesEmpty (t, []) := fun t =>
    closesEmpty_of_none fun _ _ => List.not_mem_nil
  unfold ingestKind
  split
  · apply closesEmpty_of_none
    intro gen at_
    rcases s.handleHeartbeat_calls hdr.seq nowNs with hc | hc <;> simp [hc]
  · split
    · rw [if_neg (by rw [h.mutation]; exact nofun)]
      apply closesEmpty_of_none
      intro gen at_
      rcases s.handleEos_calls hdr with hc | hc <;> simp [hc]
    · unfold ingestData
      split
      · exact hnone _
      · split
        · exact hnone _
        · rename_i first last hspan
          have hf : DataFrame frame hdr first last := ⟨hhdr, hspan, hr⟩
          obtain ⟨-, -, hle, hlim⟩ := hf.bounds
          split
          · rename_i hinit
            have hact : Act (Carries frame hdr) s [] (s.anchorAt first nowNs) :=
              .anchor first hinit (by omega) rfl
            exact applyFrame_closesEmpty (hact.coherent h) hf hle nowNs
          · split
            · exact hnone _
            · rename_i hdup
              exact applyFrame_closesEmpty h hf (Nat.le_of_not_lt hdup) nowNs

end Frame

theorem ingest_closesEmpty {s : Sequencer} (h : s.Coherent) {frame : List UInt8}
    (hr : InRange frame) (feed : FeedId) (nowNs : ℕ) :
    ClosesEmpty (s.ingest frame feed nowNs) := by
  have hnone : ∀ t : Sequencer, ClosesEmpty (t, []) := fun t =>
    closesEmpty_of_none fun _ _ => List.not_mem_nil
  have hcount := s.countPacket_core frame feed
  unfold ingest
  dsimp only
  split
  · exact hnone _
  · split
    · exact hnone _
    · rename_i hdr hhdr
      split
      · exact hnone _
      · have hd := dispatchSession_dispatched (s.countPacket frame feed) hdr.session
        have hcalls : ∀ gen at_, .onEvent (.reAnchored gen at_) ∉
            ((s.countPacket frame feed).dispatchSession hdr.session).2 := by
          intro gen at_
          generalize (s.countPacket frame feed).dispatchSession hdr.session = r at hd
          obtain ⟨t, calls⟩ := r
          cases hd <;> simp
        exact (ingestKind_closesEmpty (hd.coherent (h.of_core hcount)) hhdr (hr hdr hhdr)
          feed nowNs).prepend hcalls

/-- Gap/window coherence: between calls of a run in range the staged count, the gap and
its evidence agree, a gap closes only over an empty window, and the tests of `steadyReady`
besides the state test hold whenever the state is `contig`. -/
theorem gap_window_coherence (inputs : List Input) (hr : ∀ i ∈ inputs, i.InRange) :
    (0 < (run inputs).1.window.stagedCount → (run inputs).1.gapActive = true) ∧
    ((run inputs).1.gapActive = true → (run inputs).1.w < (run inputs).1.evidenceHwm) ∧
    ((run inputs).1.gapActive = false → (run inputs).1.evidenceHwm = 0) ∧
    ((run inputs).1.state = .init ∨ (run inputs).1.state = .contig →
      (run inputs).1.gapActive = false) ∧
    ((run inputs).1.state = .gap → (run inputs).1.gapActive = true) ∧
    (∀ i, i.InRange → ∀ gen at_,
      .sink (.onEvent (.reAnchored gen at_)) ∈ ((run inputs).1.step i).2 →
      ((run inputs).1.step i).1.window.stagedCount = 0 ∧
      ∃ (t : Sequencer) (pre : List SinkCall), t.window.stagedCount = 0 ∧ t.w = at_ ∧
        (t.checkGapClose gen).2 = [.onEvent (.reAnchored gen at_)] ∧
        ((run inputs).1.step i).2 = (pre ++ (t.checkGapClose gen).2).map .sink ∧
        ((run inputs).1.step i).1.core = (t.checkGapClose gen).1.core) ∧
    ((run inputs).1.state = .contig →
      (run inputs).1.window.stagedCount = 0 ∧ (run inputs).1.gapActive = false) ∧
    (run inputs).1.steadyReady =
      ((run inputs).1.sessionLive && (run inputs).1.state == .contig &&
        (run inputs).1.pendingTo.isNone) := by
  have h := run_coherent hr
  generalize (run inputs).1 = s at h
  have hcontig : s.state = .contig → s.window.stagedCount = 0 ∧ s.gapActive = false :=
    fun hst => ⟨h.stagedCount_eq_zero (h.calm (.inr hst)), h.calm (.inr hst)⟩
  refine ⟨h.staged_imp_gapActive, h.gapOpen, h.gapClosed, h.calm, h.inGap, ?_, hcontig, ?_⟩
  · intro i hi gen at_ hmem
    cases i with
    | recoveryIntent nowNs => simp [step] at hmem
    | sealDead reason =>
        unfold step sealDead at hmem
        dsimp only at hmem
        split at hmem <;> simp at hmem
    | frame bytes feed nowNs =>
        have hcalls : .onEvent (.reAnchored gen at_) ∈ (s.ingest bytes feed nowNs).2 := by
          simpa [step] using hmem
        obtain ⟨t, pre, h₁, h₂, h₃, h₄, h₅⟩ :=
          ingest_closesEmpty h (show InRange bytes from hi) feed nowNs gen at_ hcalls
        refine ⟨?_, t, pre, h₁, h₂, h₃, ?_, h₅⟩
        · simp only [step]
          rw [stagedCount_of_core h₅, (t.checkGapClose_window gen).1, h₁]
        · simp only [step, h₄]
  · unfold steadyReady
    by_cases hst : s.state = .contig
    · obtain ⟨h₁, h₂⟩ := hcontig hst
      simp [hst, h₁, h₂]
    · rw [beq_false_of_ne hst]
      simp only [Bool.and_false, Bool.false_and]

/-- A run that stages one message behind a gap. -/
def stagedRun : List Input :=
  [.frame (makeFrame (SessionId.repeated 65) 1 2) 0 10,
    .frame (makeFrame (SessionId.repeated 65) 5 1) 1 20]

theorem gap_window_coherence_staged : (run stagedRun).1.gapActive = true :=
  (gap_window_coherence stagedRun (by decide +kernel)).1 (by decide +kernel)

/-! ## The window law -/

/-- The slots hold payloads of the current visit and session, each for the one number above
the watermark that the slot stands for; the watermark's slot is empty and the count exact. -/
structure WindowLaw (s : Sequencer) (visit : List Input) : Prop where
  slots : ∀ i < WINDOW_SLOTS, s.window.lens i ≠ 0 →
    ∃ q, (s.w < q ∧ q < s.w + WINDOW_SLOTS ∧ q % WINDOW_SLOTS = i) ∧
      (∀ q', s.w < q' → q' < s.w + WINDOW_SLOTS → q' % WINDOW_SLOTS = i → q' = q) ∧
      ∃ data, (q, data) ∈ carried visit s.session ∧ s.window.lens i - 1 = data.length ∧
        s.window.arenaSlice (64 * i) data.length = data
  watermark : s.window.lens (s.w % WINDOW_SLOTS) = 0
  count : s.window.stagedCount = s.window.occupied.card

/-- The first adoption of a session finds an empty window. -/
def AdoptsEmpty (s : Sequencer) : Input → Prop
  | .frame bytes _ _ => ∀ hdr, parseHeader bytes = .ok hdr →
      ¬(s.session = zeroSession ∧ s.state ≠ .dead ∧ 0 < s.window.stagedCount ∧
        hdr.session ≠ zeroSession)
  | _ => True

instance (s : Sequencer) : DecidablePred s.AdoptsEmpty
  | .frame bytes _ _ => decidableForallHeader bytes _
  | .recoveryIntent _ => isTrue trivial
  | .sealDead _ => isTrue trivial

/-- What is staged was carried for the current session in the current visit. -/
def HeldCarried (visit : List Input) (s : Sequencer) : Prop :=
  ∀ q d, s.held q = some d → (q, d) ∈ carried visit s.session

theorem HeldCarried.windowLaw {visit : List Input} {s : Sequencer} (h : HeldCarried visit s)
    (hs : s.Coherent) : WindowLaw s visit where
  slots := by
    intro i hi hne
    obtain ⟨q, h₁, h₂, h₃⟩ := RingWindow.exists_position s.w hi
    have hcell : s.held q = some (s.window.arenaSlice (i * 64) (s.window.lens i - 1)) := by
      rw [held, Window.held, RingWindow.view_of_mem ⟨h₁, h₂⟩, h₃, Window.cell, if_neg hne]
    have hlt := hs.ahead q (by rw [hcell]; simp)
    refine ⟨q, ⟨hlt, h₂, h₃⟩, fun q' h₁' h₂' h₃' => ?_, _, h q _ hcell, ?_, ?_⟩
    · exact RingWindow.eq_of_mod_eq ⟨h₁'.le, h₂'⟩ ⟨h₁, h₂⟩ (h₃'.trans h₃.symm)
    · rw [Window.arenaSlice_length]
    · rw [Window.arenaSlice_length, Nat.mul_comm]
  watermark := Window.lens_eq_zero_of_held hs.held_w
  count := hs.sound.count

theorem HeldCarried.acts {visit : List Input} {s t : Sequencer} {src : ℕ → List UInt8 → Prop}
    {calls : List SinkCall} (h : HeldCarried visit s) (hs : s.Coherent) {i : Input}
    (hsrc : ∀ q d, src q d → (q, d) ∈ Input.blocks s.session i)
    (hacts : Acts src s calls t) : HeldCarried (visit ++ [i]) t := by
  obtain ⟨hsess, hprov⟩ := hacts.sourced hs
  intro q d hq
  rw [hsess, carried_append, List.mem_append]
  rcases hprov q d hq with hold | hnew
  · exact Or.inl (h q d hold)
  · exact Or.inr (by simpa [carried] using hsrc q d hnew)

theorem HeldCarried.called {visit : List Input} {s s' : Sequencer} {i : Input}
    {calls : List SinkCall} (h : HeldCarried visit s) (hs : s.Coherent)
    (hadopt : s.AdoptsEmpty i) (hcalled : Called s i (s', calls))
    (hany : calls.any SinkCall.isBoundary = false) : HeldCarried (visit ++ [i]) s' := by
  cases hcalled with
  | silent hcore => exact h.acts hs nofun (Act.acts (.note hcore) : Acts (fun _ _ => False) s [] s')
  | sealed hacts => exact h.acts hs nofun hacts
  | frame hhdr hlive hd hacts =>
      rename_i bytes feed nowNs hdr t calls₁ calls₂
      have ht : HeldCarried visit t ∧ t.session = hdr.session := by
        cases hd with
        | same hsess hcore =>
            refine ⟨fun q d hq => ?_, (session_of_core hcore).trans hsess⟩
            rw [held_of_core hcore] at hq
            rw [session_of_core hcore]
            exact h q d hq
        | adopt h0 hcore =>
            refine ⟨fun q d hq => ?_, (session_of_core hcore :)⟩
            have hq' : s.held q = some d := by rwa [held_of_core hcore] at hq
            have hpos : 0 < s.window.stagedCount := by
              by_contra hz
              rw [held, hs.sound.held_eq_none (by omega)] at hq'
              cases hq'
            -- something is staged, so the session only renames itself
            have hzero : hdr.session = zeroSession := by
              by_contra hne
              exact hadopt hdr hhdr ⟨h0, hlive, hpos, hne⟩
            have hsess : t.session = s.session :=
              (session_of_core hcore :).trans (hzero.trans h0.symm)
            rw [hsess]
            exact h q d hq'
        | boundary => simp [SinkCall.isBoundary] at hany
      refine ht.1.acts (hd.coherent hs) (fun q d hq => ?_) hacts
      rw [ht.2, blocks_frame hhdr]
      exact hq

/-- In every run in range whose session adoptions find an empty window, the window law
holds after the last call. -/
theorem window_law (inputs : List Input) (hr : ∀ i ∈ inputs, i.InRange)
    (hadopt : Machine.Along step AdoptsEmpty new inputs) :
    WindowLaw (run inputs).1 (visitInputs inputs) := by
  have key := visit_rule (P := fun vis s _ => HeldCarried vis s) (fun _ _ h => h.1)
    (fun q d hq => by
      rw [new_coherent.held_eq_none rfl] at hq
      cases hq)
    (fun vis s calls bytes feed nowNs hdr t s' calls' hs hP hi hhdr h0 hn ht hacts => ?_)
    (fun vis s calls i s' calls' hs hP hi hcalled hany => hP.called hs hi.2 hcalled hany)
    (hadopt.and_forall hr)
  · exact key.windowLaw (run_coherent hr)
  · obtain ⟨hcoh, hempty⟩ := crossTo_coherent hs hdr.session
    have hstart : HeldCarried [] t := by
      intro q d hq
      rw [held_of_core ht, held, hcoh.sound.held_eq_none hempty] at hq
      cases hq
    refine hstart.acts (hcoh.of_core ht) (fun q d hq => ?_) hacts
    rw [show t.session = hdr.session from (session_of_core ht :), blocks_frame hhdr]
    exact hq

theorem window_law_staged : WindowLaw (run stagedRun).1 (visitInputs stagedRun) :=
  window_law stagedRun (by decide +kernel) (by decide +kernel)

/-- A message of the all-zero session is staged, then a heartbeat of another session is
adopted over it. -/
def adoptedOver : List Input :=
  [.frame (makeFrame zeroSession 1 1) 0 10, .frame (makeFrame zeroSession 5 1) 0 20,
    .frame (makeHbFrame (SessionId.repeated 65) 2) 0 30]

/-- Slot 5 still holds the message of the all-zero session although the current session is
another one and no frame of it carried anything. -/
theorem window_law_fails : ¬WindowLaw (run adoptedOver).1 (visitInputs adoptedOver) := by
  intro h
  obtain ⟨q, -, -, data, hmem, -⟩ := h.slots 5 (by decide) (by decide +kernel)
  have hnone : carried (visitInputs adoptedOver) (run adoptedOver).1.session = [] := by
    decide +kernel
  rw [hnone] at hmem
  cases hmem

end Sequencer

end HftProj.Arbitrator
