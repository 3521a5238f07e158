import HftProj.Arbitrator.Apply

/-!
# The acts of a session

An `Act` is one of the ways a call changes a coherent state while the session
stays the same. Every call is a chain of acts, possibly after a change of session,
and every act keeps the state coherent, so every reachable state is coherent.
-/

namespace HftProj.Arbitrator

open HftProj.Lib HftProj.Protocol HftProj.Protocol.Moldudp64 HftProj.Protocol.Packet

namespace Sequencer

/-- One change of a state with the calls it makes, up to `core`. Payloads that are
delivered from the frame or staged satisfy `src`. -/
inductive Act (src : ℕ → List UInt8 → Prop) : Sequencer → List SinkCall → Sequencer → Prop
  | note {s s'} (h : s'.core = s.core) : Act src s [] s'
  | evidence {s s'} (x : ℕ) (hx : s.w < x) (h : s'.core = (s.gapEvidence x).1.core) :
      Act src s (s.gapEvidence x).2 s'
  | announce {s s'} (st : State) (call : Option Event)
      (hst : st = .eosPersist ∨ st = .ended ∨ st = .dead)
      (hcall : call = none ∨ (∃ a, call = some (.endOfSession s.session s.w a)) ∨
        ∃ r, call = some (.sessionDead r s.w))
      (h : s'.core = core { s with state := st }) :
      Act src s (call.toList.map .onEvent) s'
  | anchor {s s'} (first : ℕ) (hinit : s.state = .init) (hfirst : first ≤ seqLimit)
      (h : s'.core = core { s with w := first, state := .contig }) : Act src s [] s'
  | emit {s s'} (items : List (ℕ × List UInt8)) (hsrc : ∀ i ∈ items, src i.1 i.2)
      (h : s'.core = s.core) : Act src s (deliver ⟨s.gen⟩ items) s'
  | advance {s s'} (hc : s.Coherent) (start : ℕ) (items : List (ℕ × List UInt8)) (win : Window)
      (hstart : s.w ≤ start) (hlim : start ≤ seqLimit) (hsrc : ∀ i ∈ items, src i.1 i.2)
      (hsound : win.Sound)
      (hheld : win.held (hc.buffer.firstMissing start) = (hc.buffer.skipTo start hstart).held)
      (h : s'.core = (({ s with
        w := hc.buffer.firstMissing start, window := win }).checkGapClose s.gen).1.core) :
      Act src s (deliver ⟨s.gen⟩ items ++ (deliver ⟨s.gen⟩ (hc.buffer.released start) ++
        (({ s with
          w := hc.buffer.firstMissing start, window := win }).checkGapClose s.gen).2)) s'
  | hold {s s'} (hc : s.Coherent) (first : ℕ) (ds : List (List UInt8)) (win : Window)
      (hgap : s.gapActive = true) (hnext : s.w < first) (hfirst : first ≤ s.evidenceHwm)
      (hlim : first + ds.length ≤ seqLimit) (hsrc : ∀ i ∈ number first ds, src i.1 i.2)
      (hsound : win.Sound)
      (hheld : win.held s.w = (hc.buffer.holdAll (number first ds)).held)
      (h : s'.core = core { s with window := win }) : Act src s [] s'

/-- A chain of acts, with its calls in order. -/
inductive Acts (src : ℕ → List UInt8 → Prop) : Sequencer → List SinkCall → Sequencer → Prop
  | refl (s) : Acts src s [] s
  | step {s t u calls calls'} (h : Act src s calls t) (hs : Acts src t calls' u) :
      Acts src s (calls ++ calls') u

theorem Act.acts {src : ℕ → List UInt8 → Prop} {s s' : Sequencer} {calls : List SinkCall}
    (h : Act src s calls s') : Acts src s calls s' := by
  simpa using Acts.step h (.refl s')

/-! ## Coherence is kept -/

theorem Coherent.extend {s : Sequencer} (h : s.Coherent) (hgap : s.gapActive = true) {x : ℕ}
    (hx : s.evidenceHwm ≤ x) : Coherent { s with evidenceHwm := x } :=
  { h with
    rooted := (h.buffer_rooted.mono hx :)
    gapOpen := fun hg => lt_of_lt_of_le (h.gapOpen hg) hx
    gapClosed := fun hg => absurd hgap (by simp only at hg; simp [hg]) }

theorem Coherent.gapEvidence {s : Sequencer} (h : s.Coherent) {x : ℕ} (hx : s.w < x) :
    (s.gapEvidence x).1.Coherent := by
  by_cases hg : s.gapActive
  · have hrun : s.gapEvidence x = ({ s with evidenceHwm := max s.evidenceHwm x }, []) := by
      simp [Sequencer.gapEvidence, hg]
    rw [hrun]
    exact h.extend hg (Nat.le_max_left _ _)
  · have hnone := h.held_eq_none (by simpa using hg)
    have hrun := gapEvidence_open hx
    unfold Sequencer.gapEvidence at hrun ⊢
    rw [if_pos ⟨by simpa using hg, hx⟩]
    exact { h with
      rooted := fun q hq => absurd (hnone q) hq
      gapOpen := fun _ => hx
      gapClosed := nofun
      calm := nofun
      inGap := fun _ => rfl }

/-- Closing the gap at its evidence restores coherence after the watermark moved. -/
theorem Coherent.advance {s : Sequencer} (h : s.Coherent) {start : ℕ} (hstart : s.w ≤ start)
    (hlim : start ≤ seqLimit) {win : Window} (hsound : win.Sound)
    (hheld : win.held (h.buffer.firstMissing start) = (h.buffer.skipTo start hstart).held)
    (gen : ℕ) :
    (({ s with w := h.buffer.firstMissing start, window := win }).checkGapClose gen).1.Coherent := by
  set b := h.buffer.skipTo start hstart with hb
  have hnext : b.next = h.buffer.firstMissing start := rfl
  have hroot : b.Rooted s.evidenceHwm := h.buffer_rooted.skipTo hstart
  have hsub : ∀ q, b.held q ≠ none → s.held q ≠ none := by
    intro q hq hnone
    simp only [hb, ReorderBuffer.skipTo, Coherent.buffer_held, hnone, ite_self] at hq
    exact hq rfl
  have hbound : h.buffer.firstMissing start ≤ seqLimit := by
    have hle := h.buffer.le_firstMissing start
    by_contra hgt
    have hlast : h.buffer.held (h.buffer.firstMissing start - 1) ≠ none :=
      ReorderBuffer.held_of_lt_firstMissing (show start ≤ _ by omega) (by omega)
    have := h.heldBound _ hlast
    omega
  unfold checkGapClose
  by_cases hclose : s.gapActive ∧ h.buffer.firstMissing start ≥ s.evidenceHwm
  · rw [if_pos hclose]
    have hnone : ∀ q, b.held q = none := by
      intro q
      by_contra hq
      have := hroot.next_lt hq
      rw [hnext] at this
      omega
    constructor
    · exact h.mutation
    · exact hsound
    · intro q hq
      exact absurd ((congrFun hheld q).trans (hnone q)) hq
    · exact hbound
    · intro q hq
      exact absurd ((congrFun hheld q).trans (hnone q)) hq
    · intro q hq
      exact absurd ((congrFun hheld q).trans (hnone q)) hq
    · intro h
      cases h
    · exact fun _ => rfl
    · exact fun _ => rfl
    · intro h
      cases h
  · rw [if_neg hclose]
    constructor
    · exact h.mutation
    · exact hsound
    · intro q hq
      rw [held, hheld] at hq
      exact (b.ahead q hq).1
    · exact hbound
    · intro q hq
      rw [held, hheld] at hq
      exact h.heldBound q (hsub q hq)
    · intro q hq
      rw [held, hheld] at hq ⊢
      exact hroot q hq
    · intro hg
      exact Nat.lt_of_not_le fun hle => hclose ⟨hg, hle⟩
    · exact h.gapClosed
    · exact h.calm
    · exact h.inGap

theorem Coherent.hold {s : Sequencer} (h : s.Coherent) {first : ℕ} {ds : List (List UInt8)}
    {win : Window} (hnext : s.w < first) (hfirst : first ≤ s.evidenceHwm)
    (hlim : first + ds.length ≤ seqLimit) (hsound : win.Sound)
    (hheld : win.held s.w = (h.buffer.holdAll (number first ds)).held) :
    Coherent { s with window := win } := by
  have hroot : (h.buffer.holdAll (number first ds)).Rooted s.evidenceHwm :=
    h.buffer_rooted.holdAll_number hnext hfirst
  constructor
  · exact h.mutation
  · exact hsound
  · intro q hq
    rw [held, hheld] at hq
    have := ((h.buffer.holdAll _).ahead q hq).1
    rwa [ReorderBuffer.holdAll_next] at this
  · exact h.wBound
  · intro q hq
    rw [held, hheld] at hq
    obtain ⟨x, hx⟩ := Option.ne_none_iff_exists'.mp hq
    rcases ReorderBuffer.holdAll_sourced hx with hb | hmem
    · exact h.heldBound q (by rw [← h.buffer_held, hb]; simp)
    · have := mem_number_bounds hmem
      omega
  · intro q hq
    rw [held, hheld] at hq ⊢
    exact hroot q hq
  · exact h.gapOpen
  · exact h.gapClosed
  · exact h.calm
  · exact h.inGap

theorem Act.coherent {src : ℕ → List UInt8 → Prop} {s s' : Sequencer} {calls : List SinkCall}
    (hact : Act src s calls s') (hs : s.Coherent) : s'.Coherent := by
  cases hact with
  | note h => exact hs.of_core h
  | evidence x hx h => exact (hs.gapEvidence hx).of_core h
  | announce st call hst _ h =>
      refine Coherent.of_core h { hs with calm := ?_, inGap := ?_ }
      · rcases hst with rfl | rfl | rfl <;> simp
      · rcases hst with rfl | rfl | rfl <;> simp
  | anchor first hinit hfirst h =>
      have hgap := hs.calm (.inl hinit)
      have hnone : ∀ q, Window.held s.window first q = none :=
        hs.sound.held_eq_none (hs.stagedCount_eq_zero hgap) first
      exact Coherent.of_core h
        { hs with
          ahead := fun q hq => absurd (hnone q) hq
          wBound := hfirst
          heldBound := fun q hq => absurd (hnone q) hq
          rooted := fun q hq => absurd (hnone q) hq
          gapOpen := fun hg => by simp [hgap] at hg
          calm := fun _ => hgap
          inGap := nofun }
  | emit items _ h => exact hs.of_core h
  | advance hc start items win hstart hlim _ hsound hheld h =>
      exact (hc.advance hstart hlim hsound hheld s.gen).of_core h
  | hold hc first ds win _ hnext hfirst hlim _ hsound hheld h =>
      exact (hc.hold hnext hfirst hlim hsound hheld).of_core h

theorem Acts.coherent {src : ℕ → List UInt8 → Prop} {s s' : Sequencer} {calls : List SinkCall}
    (hacts : Acts src s calls s') (hs : s.Coherent) : s'.Coherent := by
  induction hacts with
  | refl => exact hs
  | step h _ ih => exact ih (h.coherent hs)

/-! ## Every call is a chain of acts -/

theorem Acts.trans {src : ℕ → List UInt8 → Prop} {s t u : Sequencer}
    {calls calls' : List SinkCall} (h : Acts src s calls t) (h' : Acts src t calls' u) :
    Acts src s (calls ++ calls') u := by
  induction h with
  | refl => exact h'
  | step hact _ ih =>
      rw [List.append_assoc]
      exact .step hact (ih h')

/-- A silent first act. -/
theorem Act.then {src : ℕ → List UInt8 → Prop} {s t u : Sequencer} {calls : List SinkCall}
    (h : Act src s [] t) (h' : Acts src t calls u) : Acts src s calls u := Acts.step h h'

theorem handleHeartbeat_acts {src : ℕ → List UInt8 → Prop} (s : Sequencer) (seq nowNs : ℕ) :
    Acts src s (s.handleHeartbeat seq nowNs).2 (s.handleHeartbeat seq nowNs).1 := by
  unfold handleHeartbeat
  dsimp only [count]
  split
  · exact Act.acts (.note rfl)
  · split
    · exact Act.acts (.note rfl)
    · split
      · exact Act.acts (.note rfl)
      · split
        · rename_i hseq
          exact Act.then (.note (by rfl)) (Act.acts (.evidence seq hseq rfl))
        · exact Act.acts (.note rfl)

theorem handleEos_acts {src : ℕ → List UInt8 → Prop} (s : Sequencer) (hdr : Header) :
    Acts src s (s.handleEos hdr).2 (s.handleEos hdr).1 := by
  have hended : ∀ s' : Sequencer, s'.core = s.core →
      Acts src s [.onEvent (.endOfSession s'.session s'.w hdr.seq)]
        { s' with state := .ended } := fun s' h =>
    Act.then (.note h) (Act.acts (.announce .ended (some (.endOfSession s'.session s'.w hdr.seq))
      (.inr (.inl rfl)) (.inr (.inl ⟨_, rfl⟩)) rfl))
  have hseen := hended (s.count fun c => { c with eosSeen := c.eosSeen + 1 }) rfl
  have hdup := hended (s.count fun c => { c with eosDup := c.eosDup + 1 }) rfl
  unfold handleEos
  dsimp only
  split
  · exact Act.acts (.note rfl)
  · split
    · exact Act.acts (.note rfl)
    · split
      · exact hseen
      · split
        · split
          · exact hdup
          · exact Act.acts (.note rfl)
        · split
          · exact Act.then (.note (by rfl)) (Act.acts
              (.announce .eosPersist none (.inl rfl) (.inl rfl) rfl))
          · exact hseen

theorem sealDead_acts {src : ℕ → List UInt8 → Prop} (s : Sequencer) (reason : DeadReason) :
    Acts src s (s.sealDead reason).2 (s.sealDead reason).1 := by
  unfold sealDead
  split
  · exact Act.acts (.announce .dead (some (.sessionDead reason s.w))
      (.inr (.inr rfl)) (.inr (.inr ⟨_, rfl⟩)) rfl)
  · exact .refl s

/-- Recovery intents only touch clocks, the pending intent and telemetry. -/
theorem checkRecoveryIntent_core (s : Sequencer) (nowNs : ℕ) :
    (s.checkRecoveryIntent nowNs).1.core = s.core := by
  unfold checkRecoveryIntent
  split
  · split
    · rfl
    · split <;> rfl
  · dsimp only
    split
    · rfl
    · split
      · rfl
      · split <;> rfl

section Frame

variable {frame : List UInt8} {hdr : Header} {first last : ℕ}

/-- Payloads that come from the frame. -/
def Carries (frame : List UInt8) (hdr : Header) (q : ℕ) (d : List UInt8) : Prop :=
  (q, d) ∈ headerBlocks frame hdr

theorem applyContiguous_acts {s : Sequencer} (h : s.Coherent)
    (hf : DataFrame frame hdr first last) (hfirst : first ≤ s.w) (hlast : s.w ≤ last)
    (nowNs : ℕ) :
    Acts (Carries frame hdr) s (s.applyContiguous frame hdr first last nowNs).2
      (s.applyContiguous frame hdr first last nowNs).1 := by
  cases hw : walkError frame hdr (s.w - first) with
  | some e =>
      obtain ⟨hcore, hcalls⟩ := applyContiguous_error hf hfirst hlast nowNs hw
      rw [hcalls]
      refine Act.acts (.emit _ (fun i hi => ?_) hcore)
      exact List.mem_of_mem_drop (validate_of_mem_validPrefix hi).1
  | none =>
      obtain ⟨win, hsound, hheld, hcore, hcalls⟩ :=
        applyContiguous_ok h hf hfirst hlast nowNs hw
      rw [hcalls]
      refine Act.acts (.advance h (last + 1) _ win (Nat.le_succ_of_le hlast) hf.bounds.2.2.2
        (fun i hi => ?_) hsound hheld hcore)
      exact List.mem_of_mem_drop hi

/-- Recording the reach of a span extends the open gap or changes nothing. -/
theorem recordReach_acts {src : ℕ → List UInt8 → Prop} {s : Sequencer}
    (hgap : s.gapActive = true) (hw : s.w ≤ last) (hlim : last + 1 ≤ seqLimit) :
    Acts src s [] (s.recordReach last) := by
  have hwrap : wrappingAdd last 1 = last + 1 := by
    unfold seqLimit at hlim
    exact wrappingAdd_of_lt (by omega)
  have hrun : s.gapEvidence (last + 1) =
      ({ s with evidenceHwm := max s.evidenceHwm (last + 1) }, []) := by
    simp [gapEvidence, hgap]
  by_cases hreach : last ≥ wrappingAdd s.w WINDOW_SLOTS
  · have hact : Act src s (s.gapEvidence (last + 1)).2 (s.recordReach last) :=
      .evidence (last + 1) (Nat.lt_succ_of_le hw) (by
        rw [hrun, recordReach, if_pos hreach, hwrap]
        rfl)
    rw [hrun] at hact
    exact Act.acts hact
  · refine Act.acts (.note ?_)
    rw [recordReach, if_neg hreach]
    rfl

theorem applyGap_acts {s : Sequencer} (h : s.Coherent) (hf : DataFrame frame hdr first last)
    (hfirst : s.w < first) (nowNs : ℕ) :
    Acts (Carries frame hdr) s (s.applyGap frame hdr first last nowNs).2
      (s.applyGap frame hdr first last nowNs).1 := by
  obtain ⟨win, c, hstaged, hrun⟩ := applyGap_eq h hf hfirst nowNs
  obtain ⟨-, -, hle, hlim⟩ := hf.bounds
  obtain ⟨hwin, hw, -⟩ := s.gapEvidence_window first
  obtain ⟨hgap, hhwm⟩ := gapEvidence_open hfirst
  have h₁ : (s.gapEvidence first).1.Coherent := h.gapEvidence hfirst
  have hbuf : h₁.buffer = h.buffer :=
    ReorderBuffer.ext hw (by rw [h₁.buffer_held, h.buffer_held, held, held, hwin, hw])
  obtain ⟨k, hk⟩ := validPrefix_eq_take (headerBlocks frame hdr)
  rw [hf.blocks, number_take] at hk
  have hlen := hf.length_le
  have hcount : ((payloads frame hdr).take k).length ≤ (payloads frame hdr).length := by
    rw [List.length_take]
    omega
  obtain ⟨n, hn⟩ := hstaged.counters
  -- stage the accepted blocks under the extended evidence
  have hhold : Act (Carries frame hdr) (s.gapEvidence first).1 []
      { (s.gapEvidence first).1 with window := win, counters := c } := by
    refine .hold h₁ first ((payloads frame hdr).take k) win hgap (by omega) hhwm (by omega)
      (fun i hi => ?_) hstaged.sound ?_ ?_
    · rw [← hk, ← hf.blocks] at hi
      exact (validate_of_mem_validPrefix hi).1
    · have := hstaged.held
      rw [hf.blocks, hk] at this
      rw [hbuf, hw]
      exact this
    · simp only at hn
      rw [hn]
      rfl
  have hopen : Acts (Carries frame hdr) s (s.gapEvidence first).2 (s.gapEvidence first).1 :=
    Act.acts (.evidence first hfirst rfl)
  rw [hrun]
  cases walkError frame hdr 0 with
  | some e =>
      simpa using hopen.trans (hhold.then (Act.acts (.note (by rfl))))
  | none =>
      have hreach : Acts (Carries frame hdr)
          { (s.gapEvidence first).1 with window := win, counters := c } [] _ :=
        recordReach_acts hgap (show (s.gapEvidence first).1.w ≤ last by omega) hlim
      simpa using hopen.trans (hhold.then
        (hreach.trans (Act.acts (.note (retirePending_core _)))))

theorem applyFrame_acts {s : Sequencer} (h : s.Coherent) (hf : DataFrame frame hdr first last)
    (hlast : s.w ≤ last) (nowNs : ℕ) :
    Acts (Carries frame hdr) s (s.applyFrame frame hdr first last nowNs).2
      (s.applyFrame frame hdr first last nowNs).1 := by
  unfold applyFrame
  split
  · rename_i hfirst
    exact applyContiguous_acts h hf hfirst hlast nowNs
  · rename_i hfirst
    exact applyGap_acts h hf (Nat.lt_of_not_le hfirst) nowNs

theorem ingestData_acts {s : Sequencer} (h : s.Coherent) (hhdr : parseHeader frame = .ok hdr)
    (hr : hdr.seq < 2 ^ 64 - 2 ^ 17) (feed : FeedId) (nowNs : ℕ) :
    Acts (Carries frame hdr) s (s.ingestData frame hdr feed nowNs).2
      (s.ingestData frame hdr feed nowNs).1 := by
  unfold ingestData
  split
  · exact Act.acts (.note rfl)
  · split
    · exact Act.acts (.note rfl)
    · rename_i first last hspan
      have hf : DataFrame frame hdr first last := ⟨hhdr, hspan, hr⟩
      obtain ⟨-, -, hle, hlim⟩ := hf.bounds
      split
      · rename_i hinit
        have hact : Act (Carries frame hdr) s []
            (s.anchorAt first nowNs) := .anchor first hinit (by omega) rfl
        exact hact.then (applyFrame_acts (hact.coherent h) hf hle nowNs)
      · split
        · refine Act.acts (.note ?_)
          unfold Counters.recordDuplicate Counters.feedMut
          dsimp only [count]
          split <;> rfl
        · rename_i hdup
          exact applyFrame_acts h hf (Nat.le_of_not_lt hdup) nowNs

theorem ingestKind_acts {s : Sequencer} (h : s.Coherent) (hhdr : parseHeader frame = .ok hdr)
    (hr : hdr.seq < 2 ^ 64 - 2 ^ 17) (feed : FeedId) (nowNs : ℕ) :
    Acts (Carries frame hdr) s (s.ingestKind frame hdr feed nowNs).2
      (s.ingestKind frame hdr feed nowNs).1 := by
  unfold ingestKind
  split
  · exact handleHeartbeat_acts s _ nowNs
  · split
    · rw [if_neg (by rw [h.mutation]; exact nofun)]
      exact handleEos_acts s hdr
    · exact ingestData_acts h hhdr hr feed nowNs

end Frame

/-! ## Sessions -/

/-- The state behind a session boundary. -/
def crossTo (s : Sequencer) (next : SessionId) : Sequencer :=
  { s with
    session := next
    gen := wrappingAdd s.gen 1
    state := .init
    gapActive := false
    evidenceHwm := 0
    window := if s.window.stagedCount ≠ 0 then
        { s.window with lens := fun _ => 0, stagedCount := 0 }
      else s.window }

/-- What session dispatch does for a frame of session `next`. -/
inductive Dispatched (next : SessionId) : Sequencer → List SinkCall → Sequencer → Prop
  | same {s t} (hs : s.session = next) (h : t.core = s.core) : Dispatched next s [] t
  | adopt {s t} (hs : s.session = zeroSession) (h : t.core = core { s with session := next }) :
      Dispatched next s [] t
  | boundary {s t} (hs : s.session ≠ zeroSession) (hn : s.session ≠ next)
      (h : t.core = (s.crossTo next).core) :
      Dispatched next s [.onEvent (.sessionBoundary s.session next (wrappingAdd s.gen 1))] t

theorem refreshSessionTmpl_core (s : Sequencer) : s.refreshSessionTmpl.core = s.core := rfl

theorem sessionDispatch_boundary {s : Sequencer} {next : SessionId} (hs : s.session ≠ zeroSession)
    (hn : s.session ≠ next) :
    (s.sessionDispatch next).1.core = (s.crossTo next).core ∧
      (s.sessionDispatch next).2 =
        [.onEvent (.sessionBoundary s.session next (wrappingAdd s.gen 1))] := by
  unfold sessionDispatch crossTo
  simp only [if_neg hs, if_pos hn]
  by_cases h0 : s.window.stagedCount = 0
  · simp [h0, core]
  · simp [h0, core]

theorem dispatchSession_fst (s : Sequencer) (next : SessionId) :
    (s.dispatchSession next).1.core = (s.sessionDispatch next).1.core := by
  unfold dispatchSession
  dsimp only
  split <;> rfl

theorem dispatchSession_dispatched (s : Sequencer) (next : SessionId) :
    Dispatched next s (s.dispatchSession next).2 (s.dispatchSession next).1 := by
  have hcore := s.dispatchSession_fst next
  have hcalls : (s.dispatchSession next).2 = (s.sessionDispatch next).2 := rfl
  rw [hcalls]
  by_cases hs : s.session = zeroSession
  · have hrun : s.sessionDispatch next = ({ s with
        session := next
        counters := { s.counters with sessions := s.counters.sessions + 1 } }, []) := if_pos hs
    rw [hrun] at hcore ⊢
    exact .adopt hs hcore
  · by_cases hn : s.session = next
    · have hrun : s.sessionDispatch next = (s, []) := by
        simp only [sessionDispatch, if_neg hs, if_neg (not_not.mpr hn)]
      rw [hrun] at hcore ⊢
      exact .same hn hcore
    · obtain ⟨h₁, h₂⟩ := sessionDispatch_boundary hs hn
      rw [h₂]
      exact .boundary hs hn (hcore.trans h₁)

theorem crossTo_congr {s s' : Sequencer} (h : s'.core = s.core) (next : SessionId) :
    (s'.crossTo next).core = (s.crossTo next).core := by
  have hcomm : ∀ s : Sequencer, (s.crossTo next).core = s.core.crossTo next := by
    intro s
    by_cases h0 : s.window.stagedCount = 0 <;> simp [crossTo, core, h0]
  rw [hcomm, hcomm, h]

theorem Dispatched.congr {s s' t : Sequencer} {next : SessionId} {calls : List SinkCall}
    (hd : Dispatched next s' calls t) (h : s'.core = s.core) : Dispatched next s calls t := by
  have hsession := session_of_core h
  cases hd with
  | same hs ht => exact .same (hsession ▸ hs) (ht.trans h)
  | adopt hs ht =>
      refine .adopt (hsession ▸ hs) (ht.trans ?_)
      calc core { s' with session := next } = { s'.core with session := next } := rfl
        _ = _ := by rw [h]; rfl
  | boundary hs hn ht =>
      rw [hsession, gen_of_core h]
      exact .boundary (hsession ▸ hs) (hsession ▸ hn) (ht.trans (crossTo_congr h next))

theorem crossTo_flush {s : Sequencer} (h : s.window.Sound) (next : SessionId) :
    (s.crossTo next).window.Sound ∧ (s.crossTo next).window.stagedCount = 0 := by
  unfold crossTo
  dsimp only
  split
  · exact ⟨⟨by simp [Window.occupied], fun _ => Nat.zero_le _⟩, rfl⟩
  · rename_i h0
    exact ⟨h, not_not.mp h0⟩

theorem crossTo_coherent {s : Sequencer} (h : s.Coherent) (next : SessionId) :
    (s.crossTo next).Coherent ∧ (s.crossTo next).window.stagedCount = 0 := by
  have hflush := crossTo_flush h.sound next
  have hnone : ∀ q, (s.crossTo next).held q = none := hflush.1.held_eq_none hflush.2 _
  refine ⟨?_, hflush.2⟩
  exact
    { mutation := h.mutation
      sound := hflush.1
      ahead := fun q hq => absurd (hnone q) hq
      wBound := h.wBound
      heldBound := fun q hq => absurd (hnone q) hq
      rooted := fun q hq => absurd (hnone q) hq
      gapOpen := nofun
      gapClosed := fun _ => rfl
      calm := fun _ => rfl
      inGap := nofun }

theorem Dispatched.coherent {s t : Sequencer} {next : SessionId} {calls : List SinkCall}
    (hd : Dispatched next s calls t) (h : s.Coherent) : t.Coherent := by
  cases hd with
  | same _ ht => exact h.of_core ht
  | adopt _ ht =>
      refine Coherent.of_core ht ?_
      exact { h with }
  | boundary _ _ ht => exact (crossTo_coherent h next).1.of_core ht

/-! ## Calls -/

/-- A header's sequence number is clear of the top of the range. -/
def InRange (frame : List UInt8) : Prop :=
  ∀ hdr, parseHeader frame = .ok hdr → hdr.seq < 2 ^ 64 - 2 ^ 17

instance (frame : List UInt8) : Decidable (InRange frame) :=
  decidableForallHeader frame fun hdr => hdr.seq < 2 ^ 64 - 2 ^ 17

/-- What a call does: nothing visible, an act of its own, or session dispatch followed by
acts on the frame. -/
inductive Called (s : Sequencer) : Input → Traced Sequencer SinkCall → Prop
  | silent {i s'} (h : s'.core = s.core) : Called s i (s', [])
  | sealed {reason s' calls} (h : Acts (fun _ _ => False) s calls s') :
      Called s (.sealDead reason) (s', calls)
  | frame {bytes feed nowNs hdr t s' calls calls'} (hhdr : parseHeader bytes = .ok hdr)
      (hlive : s.state ≠ .dead) (hd : Dispatched hdr.session s calls t)
      (hacts : Acts (Carries bytes hdr) t calls' s') :
      Called s (.frame bytes feed nowNs) (s', calls ++ calls')

end Sequencer

/-- The sink calls among a step's outputs. -/
def sinkCalls (outs : List Output) : List SinkCall :=
  outs.filterMap fun
    | .sink call => some call
    | .intent _ => none

theorem sinkCalls_append (xs ys : List Output) :
    sinkCalls (xs ++ ys) = sinkCalls xs ++ sinkCalls ys := List.filterMap_append

@[simp] theorem sinkCalls_sink (calls : List SinkCall) :
    sinkCalls (calls.map .sink) = calls := by
  simp [sinkCalls, List.filterMap_map]

@[simp] theorem sinkCalls_intent (answer : Option RecoveryIntent) :
    sinkCalls [.intent answer] = [] := rfl

/-- The sequence numbers of an input stay clear of the top of the range. -/
def Input.InRange : Input → Prop
  | .frame bytes _ _ => Sequencer.InRange bytes
  | _ => True

instance : DecidablePred Input.InRange
  | .frame bytes _ _ => inferInstanceAs (Decidable (Sequencer.InRange bytes))
  | .recoveryIntent _ => isTrue trivial
  | .sealDead _ => isTrue trivial

namespace Sequencer

theorem countPacket_core (s : Sequencer) (frame : List UInt8) (feed : FeedId) :
    (s.countPacket frame feed).core = s.core := by
  unfold countPacket Counters.feedMut
  dsimp only [count]
  split <;> rfl

theorem ingest_called {s : Sequencer} (h : s.Coherent) {frame : List UInt8}
    (hr : InRange frame) (feed : FeedId) (nowNs : ℕ) :
    Called s (.frame frame feed nowNs) (s.ingest frame feed nowNs) := by
  have hcount := s.countPacket_core frame feed
  unfold ingest
  dsimp only
  split
  · exact .silent hcount
  · split
    · exact .silent hcount
    · rename_i hdr hhdr
      split
      · exact .silent hcount
      · rename_i hlive
        have hd := (dispatchSession_dispatched (s.countPacket frame feed) hdr.session).congr hcount
        have hseq := hr hdr hhdr
        exact .frame hhdr (fun hst => hlive ((state_of_core hcount).trans hst)) hd
          (ingestKind_acts (hd.coherent h) hhdr hseq feed nowNs)

/-- Every call in range on a coherent state is one of the three kinds. -/
theorem step_called {s : Sequencer} (h : s.Coherent) {i : Input} (hr : i.InRange) :
    Called s i ((s.step i).1, sinkCalls (s.step i).2) := by
  cases i with
  | frame bytes feed nowNs =>
      simpa [step] using ingest_called h hr feed nowNs
  | recoveryIntent nowNs => exact .silent (s.checkRecoveryIntent_core nowNs)
  | sealDead reason => simpa [step] using Called.sealed (s.sealDead_acts reason)

theorem Called.coherent {s : Sequencer} {i : Input} {r : Traced Sequencer SinkCall}
    (hc : Called s i r) (h : s.Coherent) : r.1.Coherent := by
  cases hc with
  | silent hcore => exact h.of_core hcore
  | sealed hact => exact hact.coherent h
  | frame _ _ hd hacts => exact hacts.coherent (hd.coherent h)

theorem step_coherent {s : Sequencer} (h : s.Coherent) {i : Input} (hr : i.InRange) :
    (s.step i).1.Coherent := (step_called h hr).coherent h

/-- Every state reached by a run in range is coherent. -/
theorem run_coherent {inputs : List Input} (hr : ∀ i ∈ inputs, i.InRange) :
    (run inputs).1.Coherent :=
  Machine.run_invariant new_coherent (fun _ _ h hi => step_coherent h hi) inputs
    (Machine.along_of_forall (fun _ _ h => h) _ _ hr)

end Sequencer

end HftProj.Arbitrator
