import HftProj.Arbitrator.Atomicity

/-!
# Independence of sessions

Behind a boundary the sequencer should behave like a fresh one. Two fields keep the
values of the old session until the first data packet anchors the new one: the watermark
and the clock of the last progress. The clock is never read before the anchor; the
watermark is shown by an end of session and by an intent raised on a heartbeat.
-/

namespace HftProj.Arbitrator

open HftProj.Lib HftProj.Protocol HftProj.Protocol.Moldudp64 HftProj.Protocol.Packet

/-- A frame of the session, or a request for an intent. -/
def Input.OfSession (session : SessionId) : Input → Prop
  | .frame bytes _ _ => ∃ hdr, parseHeader bytes = .ok hdr ∧ hdr.session = session
  | .recoveryIntent _ => True
  | .sealDead _ => False

namespace Sequencer

/-- Before the first data packet, with the last heartbeat heard, some call shows the watermark. -/
@[grind =]
def ShowsWatermark : ℕ → ℕ → List Input → Prop
  | _, _, [] => False
  | hbSeq, hbVt, .frame bytes _ nowNs :: rest =>
      match parseHeader bytes with
      | .error _ => ShowsWatermark hbSeq hbVt rest
      | .ok hdr =>
          if hdr.count = HEARTBEAT_COUNT then ShowsWatermark hdr.seq nowNs rest
          else if hdr.count = EOS_COUNT then True
          else if hdr.span = none then ShowsWatermark hbSeq hbVt rest
          else False
  | hbSeq, hbVt, .recoveryIntent nowNs :: rest =>
      0 < hbSeq ∧ nowNs - hbVt ≥ HB_TRIGGER_NS ∨ ShowsWatermark hbSeq hbVt rest
  | hbSeq, hbVt, .sealDead _ :: rest => ShowsWatermark hbSeq hbVt rest

/-- The state with another watermark and another clock of the last progress. -/
def moved (s : Sequencer) (w progressVt : ℕ) : Sequencer :=
  { s with w := w, progressVt := progressVt }

/-- Nothing is staged for the session, and frames of it are no boundary. -/
structure Idle (own : SessionId) (s : Sequencer) : Prop where
  session : s.session = own
  adopted : own ≠ zeroSession
  staged : s.window.stagedCount = 0
  maxStaged : s.window.maxStaged = 0
  mutation : s.mutation = .none

section Kind

variable {own : SessionId} {s : Sequencer} {frame : List UInt8} {hdr : Header}

theorem dispatchSession_same (hs : s.session = own) (hown : own ≠ zeroSession) :
    s.dispatchSession own =
      (if s.sessionLive = false then s.refreshSessionTmpl else s, []) := by
  have hrun : s.sessionDispatch own = (s, []) := by
    unfold sessionDispatch
    rw [if_neg (hs ▸ hown), if_neg (not_not.mpr hs)]
  unfold dispatchSession
  simp only [hrun, ne_eq, not_true_eq_false, or_false]

/-- A frame of the session is handled by its kind, in a state that differs in telemetry. -/
theorem ingest_own (hs : s.session = own) (hown : own ≠ zeroSession) (hlive : s.state ≠ .dead)
    (hhdr : parseHeader frame = .ok hdr) (hsess : hdr.session = own) (feed : FeedId)
    (nowNs : ℕ) :
    ∃ t, s.Relabelled t ∧ ∀ w p, (s.moved w p).ingest frame feed nowNs =
      (t.moved w p).ingestKind frame hdr feed nowNs := by
  have hlen := (parseHeader_ok hhdr).1
  obtain ⟨hrel, -⟩ : s.Relabelled ((s.countPacket frame feed).dispatchSession s.session).1 ∧ _ :=
    relabelled_dispatch frame (hs ▸ hown) feed
  refine ⟨_, hrel, fun w p => ?_⟩
  have hmoved : ((s.moved w p).countPacket frame feed).dispatchSession own =
      (((s.countPacket frame feed).dispatchSession s.session).1.moved w p, []) := by
    rw [dispatchSession_same (s := (s.moved w p).countPacket frame feed) hs hown, hs,
      dispatchSession_same (s := s.countPacket frame feed) hs hown]
    by_cases hl : s.sessionLive = false
    · rw [if_pos (show (s.countPacket frame feed).sessionLive = false from hl),
        if_pos (show ((s.moved w p).countPacket frame feed).sessionLive = false from hl)]
      rfl
    · rw [if_neg (show ¬(s.countPacket frame feed).sessionLive = false from hl),
        if_neg (show ¬((s.moved w p).countPacket frame feed).sessionLive = false from hl)]
      rfl
  unfold ingest
  simp only [if_neg (Nat.not_lt.mpr hlen), hhdr, hsess]
  rw [if_neg (show ¬((s.moved w p).countPacket frame feed).state = .dead from hlive), hmoved]
  rfl

/-- What a frame does to a state that waits for its first data packet, whatever its watermark:
it anchors the state, shows the watermark, or is noted. -/
theorem ingestKind_unanchored (hs : s.state = .init) (hmut : s.mutation = .none)
    (frame : List UInt8) (hdr : Header) (feed : FeedId) (nowNs : ℕ) :
    (hdr.count = HEARTBEAT_COUNT ∧ ∃ c, ∀ w p, (s.moved w p).ingestKind frame hdr feed nowNs =
        (({ s with counters := c, hbSeq := hdr.seq, hbVt := nowNs } : Sequencer).moved w p, [])) ∨
      (hdr.count ≠ HEARTBEAT_COUNT ∧ hdr.count = EOS_COUNT ∧
        ∃ c, ∀ w p, (s.moved w p).ingestKind frame hdr feed nowNs =
          (({ s with counters := c, state := .ended } : Sequencer).moved w p,
            [.onEvent (.endOfSession s.session w hdr.seq)])) ∨
      (hdr.count ≠ HEARTBEAT_COUNT ∧ hdr.count ≠ EOS_COUNT ∧ hdr.span = none ∧
        ∃ c, ∀ w p, (s.moved w p).ingestKind frame hdr feed nowNs =
          (({ s with counters := c } : Sequencer).moved w p, [])) ∨
      (hdr.count ≠ HEARTBEAT_COUNT ∧ hdr.count ≠ EOS_COUNT ∧ hdr.span ≠ none ∧
        ∀ w p, (s.moved w p).ingestKind frame hdr feed nowNs =
          s.ingestKind frame hdr feed nowNs) := by
  have hne : EOS_COUNT ≠ HEARTBEAT_COUNT := by decide
  by_cases hhb : hdr.count = HEARTBEAT_COUNT
  · refine Or.inl ⟨hhb, { s.counters with heartbeats := s.counters.heartbeats + 1 }, fun w p => ?_⟩
    simp [ingestKind, hhb, handleHeartbeat, count, moved, hs]
  by_cases heos : hdr.count = EOS_COUNT
  · refine Or.inr (Or.inl ⟨hhb, heos, { s.counters with eosSeen := s.counters.eosSeen + 1 },
      fun w p => ?_⟩)
    simp [ingestKind, heos, hne, handleEos, count, moved, hs, hmut]
  cases hspan : hdr.span with
  | none =>
      refine Or.inr (Or.inr (Or.inl ⟨hhb, heos, rfl, s.counters.recordSeqOverflow, fun w p => ?_⟩))
      simp [ingestKind, hhb, heos, ingestData, hspan, count, moved, hs]
  | some span =>
      refine Or.inr (Or.inr (Or.inr ⟨hhb, heos, Option.some_ne_none _, fun w p => ?_⟩))
      simp [ingestKind, hhb, heos, ingestData, hspan, moved, hs, anchorAt]

/-- Behind the end of the session a frame is only counted. -/
theorem ingestKind_ended (hs : s.state = .ended) (hmut : s.mutation = .none)
    (frame : List UInt8) (hdr : Header) (feed : FeedId) (nowNs : ℕ) :
    ∃ c, ∀ w p, (s.moved w p).ingestKind frame hdr feed nowNs =
      (({ s with counters := c } : Sequencer).moved w p, []) := by
  have hne : EOS_COUNT ≠ HEARTBEAT_COUNT := by decide
  by_cases hhb : hdr.count = HEARTBEAT_COUNT
  · refine ⟨{ s.counters with heartbeats := s.counters.heartbeats + 1 }, fun w p => ?_⟩
    simp [ingestKind, hhb, handleHeartbeat, count, moved, hs]
  by_cases heos : hdr.count = EOS_COUNT
  · refine ⟨{ s.counters with eosDup := s.counters.eosDup + 1 }, fun w p => ?_⟩
    simp [ingestKind, heos, hne, handleEos, count, moved, hs, hmut]
  · refine ⟨s.counters.recordDataAfterEos, fun w p => ?_⟩
    simp [ingestKind, hhb, heos, ingestData, count, moved, hs]

/-- The intent of a state that staged nothing depends on heartbeats alone. -/
theorem intentTarget_idle (hstaged : s.window.stagedCount = 0) (hmax : s.window.maxStaged = 0)
    (w p nowNs : ℕ) :
    (s.moved w p).intentTarget nowNs =
      if s.hbSeq > w ∧ nowNs - s.hbVt ≥ HB_TRIGGER_NS then some s.hbSeq else none := by
  unfold intentTarget
  rw [if_neg]
  · rfl
  · rw [show (s.moved w p).window.maxStaged = 0 from hmax,
      show (s.moved w p).window.stagedCount = 0 from hstaged]
    omega

theorem checkRecoveryIntent_idle (hstaged : s.window.stagedCount = 0)
    (hmax : s.window.maxStaged = 0) (nowNs : ℕ) :
    ∃ q last c answer, ∀ p, (s.moved s.w p).checkRecoveryIntent nowNs =
      (({ s with pendingTo := q, lastIntentVt := last, counters := c } : Sequencer).moved s.w p,
        answer) := by
  have hfields : ∀ p, (s.moved s.w p).pendingTo = s.pendingTo ∧
      (s.moved s.w p).lastIntentVt = s.lastIntentVt ∧ (s.moved s.w p).w = s.w :=
    fun _ => ⟨rfl, rfl, rfl⟩
  unfold checkRecoveryIntent
  simp only [fun p => intentTarget_idle hstaged hmax s.w p nowNs, hfields]
  generalize (if s.hbSeq > s.w ∧ nowNs - s.hbVt ≥ HB_TRIGGER_NS then some s.hbSeq
    else none) = target
  -- every branch keeps or replaces the pending range, its time and the count of intents
  have hbranch : ∀ (q : Option ℕ) (last : ℕ) (c : Counters) (answer : Option RecoveryIntent),
      ∃ q' last' c' answer', ∀ p,
        ((({ s with pendingTo := q, lastIntentVt := last, counters := c } : Sequencer).moved s.w p,
          answer) : Sequencer × Option RecoveryIntent) =
        (({ s with pendingTo := q', lastIntentVt := last', counters := c' } : Sequencer).moved s.w p,
          answer') := fun q last c answer => ⟨q, last, c, answer, fun _ => rfl⟩
  have hissue := fun q toExcl => hbranch q nowNs
    { s.counters with intentsIssued := s.counters.intentsIssued + 1 } (some ⟨s.w, toExcl⟩)
  have hkeep := hbranch s.pendingTo s.lastIntentVt s.counters none
  cases target with
  | none =>
      cases hp : s.pendingTo with
      | none => exact hkeep
      | some q =>
          by_cases hagain : nowNs - s.lastIntentVt ≥ RESUGGEST_WINDOW_NS
          · simp only [if_pos hagain]
            exact hissue s.pendingTo q
          · simp only [if_neg hagain]
            exact hkeep
  | some t =>
      cases hp : s.pendingTo with
      | none => exact hissue (some (min t (wrappingAdd s.w MAX_WIRE_REQUEST))) _
      | some q =>
          by_cases hraise : min t (wrappingAdd s.w MAX_WIRE_REQUEST) > q
          · simp only [if_pos hraise]
            exact hissue (some (min t (wrappingAdd s.w MAX_WIRE_REQUEST))) _
          · by_cases hagain : nowNs - s.lastIntentVt ≥ RESUGGEST_WINDOW_NS
            · simp only [if_neg hraise, if_pos hagain]
              exact hissue s.pendingTo q
            · simp only [if_neg hraise, if_neg hagain]
              exact hkeep

/-- What a call does to a state that waits for its first data packet. -/
theorem unanchored_step (h : Idle own s) (hinit : s.state = .init) (hpend : s.pendingTo = none)
    {i : Input} (hi : i.OfSession own) :
    (∃ t out, Idle own t ∧ t.state = .init ∧ t.pendingTo = none ∧
        (∀ w p, (s.moved w p).step i = (t.moved w p, out)) ∧
        ∀ rest, ShowsWatermark s.hbSeq s.hbVt (i :: rest) ↔ ShowsWatermark t.hbSeq t.hbVt rest) ∨
      (∃ r, (∀ w p, (s.moved w p).step i = r) ∧
        ∀ rest, ¬ShowsWatermark s.hbSeq s.hbVt (i :: rest)) ∨
      ((∀ rest, ShowsWatermark s.hbSeq s.hbVt (i :: rest)) ∧
        ∀ w p p', w ≠ 0 → ∃ o o', ((s.moved w p).step i).2 = [o] ∧
          ((s.moved 0 p').step i).2 = [o'] ∧ o ≠ o') := by
  cases i with
  | sealDead reason => exact absurd hi id
  | recoveryIntent nowNs =>
      have htarget := fun w p => intentTarget_idle h.staged h.maxStaged w p nowNs
      have hquiet : ∀ w p, ¬(s.hbSeq > w ∧ nowNs - s.hbVt ≥ HB_TRIGGER_NS) →
          (s.moved w p).step (.recoveryIntent nowNs) = (s.moved w p, [.intent none]) := by
        intro w p hno
        have hpend' : (s.moved w p).pendingTo = none := hpend
        simp [step, checkRecoveryIntent, htarget, if_neg hno, hpend']
      by_cases hloud : 0 < s.hbSeq ∧ nowNs - s.hbVt ≥ HB_TRIGGER_NS
      · refine Or.inr (Or.inr ⟨fun rest => Or.inl hloud, fun w p p' hw => ?_⟩)
        have hraise : ∀ w p, s.hbSeq > w → ∃ t, ((s.moved w p).step (.recoveryIntent nowNs)).2 =
            [.intent (some ⟨w, t⟩)] := by
          intro w p hgt
          have hpend' : (s.moved w p).pendingTo = none := hpend
          refine ⟨min s.hbSeq (wrappingAdd w MAX_WIRE_REQUEST), ?_⟩
          simp only [step, checkRecoveryIntent, htarget, if_pos (And.intro hgt hloud.2), hpend']
          rfl
        obtain ⟨t₀, ht₀⟩ := hraise 0 p' hloud.1
        by_cases hgt : s.hbSeq > w
        · obtain ⟨t, ht⟩ := hraise w p hgt
          exact ⟨_, _, ht, ht₀, by simp [hw]⟩
        · refine ⟨_, _, congrArg Prod.snd (hquiet w p fun hc => hgt hc.1), ht₀, by simp⟩
      · refine Or.inl ⟨s, [.intent none], h, hinit, hpend, fun w p => ?_, fun rest => ?_⟩
        · exact hquiet w p fun hc => hloud ⟨Nat.zero_lt_of_lt hc.1, hc.2⟩
        · exact or_iff_right hloud
  | frame bytes feed nowNs =>
      obtain ⟨hdr, hhdr, hsess⟩ := hi
      obtain ⟨t, hrel, hrun⟩ := ingest_own h.session h.adopted (by simp [hinit]) hhdr hsess
        feed nowNs
      have ht : Idle own t ∧ t.state = .init ∧ t.pendingTo = none ∧ t.hbSeq = s.hbSeq ∧
          t.hbVt = s.hbVt := by
        rw [hrel.same]
        exact ⟨⟨h.session, h.adopted, h.staged, h.maxStaged, h.mutation⟩, hinit, hpend, rfl, rfl⟩
      obtain ⟨hidle, hinit', hpend', hseq, hvt⟩ := ht
      simp only [step, hrun, ShowsWatermark, hhdr]
      rcases ingestKind_unanchored hinit' hidle.mutation bytes hdr feed nowNs with
        ⟨hhb, c, hk⟩ | ⟨hhb, heos, c, hk⟩ | ⟨hhb, heos, hspan, c, hk⟩ | ⟨hhb, heos, hspan, hk⟩
      · refine Or.inl ⟨{ t with counters := c, hbSeq := hdr.seq, hbVt := nowNs }, [],
          ⟨hidle.session, hidle.adopted, hidle.staged, hidle.maxStaged, hidle.mutation⟩, hinit',
          hpend', fun w p => ?_, fun rest => ?_⟩
        · rw [hk]
          rfl
        · rw [if_pos hhb]
      · refine Or.inr (Or.inr ⟨fun rest => ?_, fun w p p' hw => ?_⟩)
        · rw [if_neg hhb, if_pos heos]
          trivial
        · refine ⟨_, _, congrArg (fun r => r.2.map Output.sink) (hk w p),
            congrArg (fun r => r.2.map Output.sink) (hk 0 p'), by simp [hw]⟩
      · refine Or.inl ⟨{ t with counters := c }, [],
          ⟨hidle.session, hidle.adopted, hidle.staged, hidle.maxStaged, hidle.mutation⟩, hinit',
          hpend', fun w p => ?_, fun rest => ?_⟩
        · rw [hk]
          rfl
        · rw [if_neg hhb, if_neg heos, if_pos hspan, hseq, hvt]
      · refine Or.inr (Or.inl ⟨_, fun w p => by rw [hk], fun rest => ?_⟩)
        rw [if_neg hhb, if_neg heos, if_neg hspan]
        exact id

/-- As long as no call shows the watermark it makes no difference. -/
theorem unanchored_run {s : Sequencer} (h : Idle own s) (hinit : s.state = .init)
    (hpend : s.pendingTo = none) {inputs : List Input} (hown : ∀ i ∈ inputs, i.OfSession own)
    (hquiet : ¬ShowsWatermark s.hbSeq s.hbVt inputs) (w w' p p' : ℕ) :
    (Machine.run step (s.moved w p) inputs).2 = (Machine.run step (s.moved w' p') inputs).2 := by
  induction inputs generalizing s with
  | nil => rfl
  | cons i rest ih =>
      have hrest : ∀ j ∈ rest, j.OfSession own := fun j hj => hown j (List.mem_cons_of_mem _ hj)
      rcases unanchored_step h hinit hpend (hown i List.mem_cons_self) with
        ⟨t, out, ht, hinit', hpend', hstep, hshows⟩ | ⟨r, hstep, -⟩ | ⟨hshows, -⟩
      · rw [Machine.run_cons, Machine.run_cons, hstep, hstep]
        exact congrArg (out ++ ·) (ih ht hinit' hpend' hrest ((hshows rest).not.mp hquiet))
      · rw [Machine.run_cons, Machine.run_cons, hstep, hstep]
      · exact absurd (hshows rest) hquiet

/-- A call that shows the watermark tells a watermark from zero. -/
theorem unanchored_shows {s : Sequencer} (h : Idle own s) (hinit : s.state = .init)
    (hpend : s.pendingTo = none) {inputs : List Input} (hown : ∀ i ∈ inputs, i.OfSession own)
    (hshows : ShowsWatermark s.hbSeq s.hbVt inputs) {w : ℕ} (hw : w ≠ 0) (p p' : ℕ) :
    (Machine.run step (s.moved w p) inputs).2 ≠ (Machine.run step (s.moved 0 p') inputs).2 := by
  induction inputs generalizing s with
  | nil => exact absurd hshows id
  | cons i rest ih =>
      have hrest : ∀ j ∈ rest, j.OfSession own := fun j hj => hown j (List.mem_cons_of_mem _ hj)
      rcases unanchored_step h hinit hpend (hown i List.mem_cons_self) with
        ⟨t, out, ht, hinit', hpend', hstep, hiff⟩ | ⟨r, -, hnot⟩ | ⟨-, hdiffer⟩
      · rw [Machine.run_cons, Machine.run_cons, hstep, hstep]
        intro heq
        exact ih ht hinit' hpend' hrest ((hiff rest).mp hshows) (List.append_cancel_left heq)
      · exact absurd hshows (hnot rest)
      · obtain ⟨o, o', ho, ho', hne⟩ := hdiffer w p p' hw
        rw [Machine.run_cons, Machine.run_cons, Traced.andThen_snd, Traced.andThen_snd, ho, ho']
        intro heq
        exact hne (List.cons.inj heq).1

/-- Nothing is staged before the anchor and behind the end, so the clock is not read. -/
theorem clock_step (h : Idle own s) (hclosed : s.state = .init ∨ s.state = .ended) {i : Input}
    (hi : i.OfSession own) (p : ℕ) :
    ((s.moved s.w p).step i).2 = (s.step i).2 ∧
      (((s.moved s.w p).step i).1 = (s.step i).1 ∨
        ((s.moved s.w p).step i).1 = (s.step i).1.moved (s.step i).1.w p ∧
          Idle own (s.step i).1 ∧ ((s.step i).1.state = .init ∨ (s.step i).1.state = .ended)) := by
  have hself : ∀ t : Sequencer, t.moved t.w t.progressVt = t := fun _ => rfl
  cases i with
  | sealDead reason => exact absurd hi id
  | recoveryIntent nowNs =>
      obtain ⟨q, last, c, answer, hrun⟩ := checkRecoveryIntent_idle h.staged h.maxStaged nowNs
      have hrun' := hrun s.progressVt
      rw [hself] at hrun'
      simp only [step, hrun, hrun']
      exact ⟨trivial, Or.inr ⟨rfl, ⟨h.session, h.adopted, h.staged, h.maxStaged, h.mutation⟩,
        hclosed⟩⟩
  | frame bytes feed nowNs =>
      obtain ⟨hdr, hhdr, hsess⟩ := hi
      obtain ⟨t, hrel, hrun⟩ := ingest_own h.session h.adopted
        (by rcases hclosed with hc | hc <;> simp [hc]) hhdr hsess feed nowNs
      have ht : Idle own t ∧ t.state = s.state ∧ t.w = s.w ∧ t.progressVt = s.progressVt := by
        rw [hrel.same]
        exact ⟨⟨h.session, h.adopted, h.staged, h.maxStaged, h.mutation⟩, rfl, rfl, rfl⟩
      obtain ⟨hidle, hstate, hw, hp⟩ := ht
      have hrun' := hrun s.w s.progressVt
      rw [hself, ← hw, ← hp, hself] at hrun'
      simp only [step, hrun, hrun', ← hw]
      have hnote : ∀ t' : Sequencer, ∀ calls, Idle own t' → (t'.state = .init ∨ t'.state = .ended) →
          (∀ p, (t.moved t.w p).ingestKind bytes hdr feed nowNs = (t'.moved t'.w p, calls)) →
          ((t.moved t.w p).ingestKind bytes hdr feed nowNs).2.map Output.sink =
              (t.ingestKind bytes hdr feed nowNs).2.map Output.sink ∧
            (((t.moved t.w p).ingestKind bytes hdr feed nowNs).1 =
                (t.ingestKind bytes hdr feed nowNs).1 ∨
              ((t.moved t.w p).ingestKind bytes hdr feed nowNs).1 =
                  (t.ingestKind bytes hdr feed nowNs).1.moved
                    (t.ingestKind bytes hdr feed nowNs).1.w p ∧
                Idle own (t.ingestKind bytes hdr feed nowNs).1 ∧
                ((t.ingestKind bytes hdr feed nowNs).1.state = .init ∨
                  (t.ingestKind bytes hdr feed nowNs).1.state = .ended)) := by
        intro t' calls hidle' hclosed' hk
        have hk' := hk t.progressVt
        rw [hself] at hk'
        rw [hk, hk']
        exact ⟨rfl, Or.inr ⟨rfl, ⟨hidle'.session, hidle'.adopted, hidle'.staged, hidle'.maxStaged,
          hidle'.mutation⟩, hclosed'⟩⟩
      rcases hclosed with hinit | hended
      · rcases ingestKind_unanchored (hstate.trans hinit) hidle.mutation bytes hdr feed nowNs with
          ⟨-, c, hk⟩ | ⟨-, -, c, hk⟩ | ⟨-, -, -, c, hk⟩ | ⟨-, -, -, hk⟩
        · exact hnote { t with counters := c, hbSeq := hdr.seq, hbVt := nowNs } []
            ⟨hidle.session, hidle.adopted, hidle.staged, hidle.maxStaged, hidle.mutation⟩
            (Or.inl (hstate.trans hinit)) (hk t.w)
        · exact hnote { t with counters := c, state := .ended } _
            ⟨hidle.session, hidle.adopted, hidle.staged, hidle.maxStaged, hidle.mutation⟩
            (Or.inr rfl) (hk t.w)
        · exact hnote { t with counters := c } []
            ⟨hidle.session, hidle.adopted, hidle.staged, hidle.maxStaged, hidle.mutation⟩
            (Or.inl (hstate.trans hinit)) (hk t.w)
        · rw [hk]
          exact ⟨rfl, Or.inl rfl⟩
      · obtain ⟨c, hk⟩ := ingestKind_ended (hstate.trans hended) hidle.mutation bytes hdr feed nowNs
        exact hnote { t with counters := c } []
          ⟨hidle.session, hidle.adopted, hidle.staged, hidle.maxStaged, hidle.mutation⟩
          (Or.inr (hstate.trans hended)) (hk t.w)

/-- Until the anchor the clock of the last progress makes no difference. -/
theorem clock_run {s : Sequencer} (h : Idle own s) (hclosed : s.state = .init ∨ s.state = .ended)
    {inputs : List Input} (hown : ∀ i ∈ inputs, i.OfSession own) (p : ℕ) :
    (Machine.run step (s.moved s.w p) inputs).2 = (Machine.run step s inputs).2 := by
  induction inputs generalizing s with
  | nil => rfl
  | cons i rest ih =>
      have hrest : ∀ j ∈ rest, j.OfSession own := fun j hj => hown j (List.mem_cons_of_mem _ hj)
      obtain ⟨hout, hnext⟩ := clock_step h hclosed (hown i List.mem_cons_self) p
      rw [Machine.run_cons, Machine.run_cons, Traced.andThen_snd, Traced.andThen_snd, hout]
      rcases hnext with hnext | ⟨hnext, hidle, hclosed'⟩
      · rw [hnext]
      · rw [hnext, ih hidle hclosed' hrest]

end Kind

/-! ## Behind a boundary -/

section Boundary

variable {own : SessionId} {s : Sequencer} {bytes : List UInt8} {hdr : Header}

theorem Relabelled.alike {t : Sequencer} (h : s.Relabelled t) (hs : Alike True id s s) :
    Alike False id t s := by
  rw [h.same]
  exact { hs with
    issued := fun _ => rfl
    counters := False.elim
    template := False.elim }

/-- In a run of frames of the session the dispatch of the first one leaves no trace. -/
theorem run_own (hs : Alike True id s s) (hown : s.session = own) (hne : own ≠ zeroSession)
    (hlive : s.state ≠ .dead) (hhdr : parseHeader bytes = .ok hdr) (hsess : hdr.session = own)
    (feed : FeedId) (nowNs : ℕ) (rest : List Input) :
    (Machine.run step s (.frame bytes feed nowNs :: rest)).2 =
      (s.ingestKind bytes hdr feed nowNs).2.map Output.sink ++
        (Machine.run step (s.ingestKind bytes hdr feed nowNs).1 rest).2 := by
  obtain ⟨t, hrel, hrun⟩ := ingest_own hown hne hlive hhdr hsess feed nowNs
  have hrun' : s.ingest bytes feed nowNs = t.ingestKind bytes hdr feed nowNs := by
    have := hrun s.w s.progressVt
    rw [hrel.same] at this ⊢
    exact this
  obtain ⟨hstate, hcalls⟩ := (hrel.alike hs).ingestKind (fun _ => rfl) hhdr feed nowNs
  rw [SinkCall.mapGen_id, List.map_id] at hcalls
  rw [Machine.run_cons, Traced.andThen_snd, step, hrun']
  dsimp only
  rw [hcalls, (hstate.run (fun _ => rfl) rest).2, mapGen_id]

/-- A run may as well start behind the dispatch of its first frame. -/
theorem run_dispatch (hs : Alike True id s s) (hne : own ≠ zeroSession) (hlive : s.state ≠ .dead)
    (hhdr : parseHeader bytes = .ok hdr) (hsess : hdr.session = own) (feed : FeedId) (nowNs : ℕ)
    (rest : List Input) (hown : ((s.countPacket bytes feed).dispatchSession own).1.session = own)
    (hlive' : ((s.countPacket bytes feed).dispatchSession own).1.state ≠ .dead) :
    (Machine.run step s (.frame bytes feed nowNs :: rest)).2 =
      ((s.countPacket bytes feed).dispatchSession own).2.map Output.sink ++
        (Machine.run step ((s.countPacket bytes feed).dispatchSession own).1
          (.frame bytes feed nowNs :: rest)).2 := by
  have hlen := (parseHeader_ok hhdr).1
  have hcount : Alike True id (s.countPacket bytes feed) (s.countPacket bytes feed) := hs.count _
  have hb := (hcount.dispatchSession (fun _ => rfl) own).alike
  have hingest : s.ingest bytes feed nowNs = ((s.countPacket bytes feed).dispatchSession own).andThen
      fun s => s.ingestKind bytes hdr feed nowNs := by
    unfold ingest
    simp only [if_neg (Nat.not_lt.mpr hlen), hhdr, hsess]
    exact if_neg hlive
  rw [run_own hb hown hne hlive' hhdr hsess feed nowNs rest, Machine.run_cons, Traced.andThen_snd,
    step, hingest]
  dsimp only [Traced.andThen]
  rw [List.map_append, List.append_assoc]

/-- The state behind a boundary. -/
structure Crossed (own : SessionId) (s b : Sequencer) : Prop extends Idle own b where
  w : b.w = s.w
  gen : b.gen = wrappingAdd s.gen 1
  state : b.state = .init
  gapActive : b.gapActive = false
  evidenceHwm : b.evidenceHwm = 0
  hbSeq : b.hbSeq = 0
  hbVt : b.hbVt = 0
  pendingTo : b.pendingTo = none

theorem dispatchSession_crossed (hs : s.session ≠ zeroSession) (hn : s.session ≠ own)
    (hne : own ≠ zeroSession) (hmut : s.mutation = .none) :
    Crossed own s (s.dispatchSession own).1 ∧ (s.dispatchSession own).2 =
      [.onEvent (.sessionBoundary s.session own (wrappingAdd s.gen 1))] := by
  have hrun : ∃ c win, win.stagedCount = 0 ∧ win.maxStaged = 0 ∧ s.sessionDispatch own =
      ({ s with
          session := own
          counters := c
          window := win
          gapActive := false
          evidenceHwm := 0
          hbSeq := 0
          hbVt := 0
          pendingTo := none
          gen := wrappingAdd s.gen 1
          state := .init },
        [.onEvent (.sessionBoundary s.session own (wrappingAdd s.gen 1))]) := by
    unfold sessionDispatch
    simp only [if_neg hs, if_pos hn]
    by_cases h0 : s.window.stagedCount = 0
    · rw [if_neg (not_not.mpr h0)]
      exact ⟨_, { s.window with maxStaged := 0 }, h0, rfl, rfl⟩
    · rw [if_pos h0]
      exact ⟨_, { s.window with lens := fun _ => 0, stagedCount := 0, maxStaged := 0 }, rfl, rfl, rfl⟩
  obtain ⟨c, win, hcount, hmax, hrun⟩ := hrun
  unfold dispatchSession
  dsimp only
  rw [hrun]
  refine ⟨?_, rfl⟩
  split
  · exact ⟨⟨rfl, hne, hcount, hmax, hmut⟩, rfl, rfl, rfl, rfl, rfl, rfl, rfl, rfl⟩
  · exact ⟨⟨rfl, hne, hcount, hmax, hmut⟩, rfl, rfl, rfl, rfl, rfl, rfl, rfl, rfl⟩

/-- Watermark and clock aside, the state behind a boundary is the fresh state that has
adopted the session. -/
theorem Crossed.alike {b : Sequencer} (h : Crossed own s b) (hb : Alike True id b b)
    (bytes : List UInt8) (feed : FeedId) :
    Alike False (fun g => wrappingAdd g (wrappingAdd s.gen 1)) (b.moved 0 0)
      ((new.countPacket bytes feed).dispatchSession own).1 := by
  have hgen : b.gen = wrappingAdd 0 (wrappingAdd s.gen 1) := by
    have hlt := wrappingAdd_lt s.gen 1
    rw [h.gen, wrappingAdd_of_lt (a := 0) (by omega), Nat.zero_add]
  have hwin : b.window.Alike Window.new := {
    sound := hb.window.sound
    sound' := Window.new_sound
    stagedCount := h.staged
    maxStaged := h.maxStaged
    cell := fun i hi => by
      rw [Window.cell, Window.cell, if_pos (hb.window.sound.lens_eq_zero h.staged hi)]
      rfl }
  have hfresh : ∀ c, Alike False (fun g => wrappingAdd g (wrappingAdd s.gen 1)) (b.moved 0 0)
      { new with session := own, counters := c } := fun c =>
    { w := rfl
      gen := hgen
      session := h.session
      state := h.state
      gapActive := h.gapActive
      evidenceHwm := h.evidenceHwm
      progressVt := rfl
      hbSeq := h.hbSeq
      hbVt := h.hbVt
      pendingTo := h.pendingTo
      issued := fun ht => absurd rfl (ht.resolve_left id)
      counters := False.elim
      template := False.elim
      mutation := h.mutation
      mutation' := rfl
      wBound := Nat.two_pow_pos 64
      window := hwin }
  have hadopt : ∃ c, ((new.countPacket bytes feed).dispatchSession own).1 =
      ({ new with session := own, counters := c } : Sequencer).refreshSessionTmpl := by
    unfold dispatchSession sessionDispatch
    rw [if_pos (show (new.countPacket bytes feed).session = zeroSession from rfl)]
    dsimp only
    rw [if_pos (show (new.countPacket bytes feed).sessionLive = false ∨ _ from Or.inl rfl)]
    exact ⟨_, rfl⟩
  obtain ⟨c, hadopt⟩ := hadopt
  rw [hadopt]
  exact { hfresh c with template := False.elim }

/-- A sealed sequencer shows intents at most. -/
theorem run_dead {s : Sequencer} (hdead : s.state = .dead) (inputs : List Input) :
    ∀ o ∈ (Machine.run step s inputs).2, ∃ answer, o = .intent answer := by
  induction inputs generalizing s with
  | nil => nofun
  | cons i rest ih =>
      have hstep : (s.step i).1.state = .dead ∧ ∀ o ∈ (s.step i).2, ∃ answer, o = .intent answer := by
        cases i with
        | frame bytes feed nowNs =>
            have hrun : (s.ingest bytes feed nowNs).1.state = .dead ∧
                (s.ingest bytes feed nowNs).2 = [] := by
              have hdead' : (s.countPacket bytes feed).state = .dead := hdead
              unfold ingest
              dsimp only
              split
              · exact ⟨hdead, rfl⟩
              · split
                · exact ⟨hdead, rfl⟩
                · exact ⟨hdead, rfl⟩
            exact ⟨hrun.1, by simp [step, hrun.2]⟩
        | recoveryIntent nowNs =>
            exact ⟨(state_of_core (s.checkRecoveryIntent_core nowNs)).trans hdead, by simp [step]⟩
        | sealDead reason =>
            have hrun : s.sealDead reason = (s, []) := if_neg (not_not.mpr hdead)
            simp [step, hrun, hdead]
      intro o ho
      rw [Machine.run_cons, Traced.andThen_snd, List.mem_append] at ho
      rcases ho with ho | ho
      · exact hstep.2 o ho
      · exact ih hstep.1 o ho

/-- What a run shows behind a boundary is what a fresh run shows, generations aside, exactly
when the old watermark is zero or is not shown before the new anchor. -/
theorem session_independence {inputs later : List Input} {own : SessionId}
    (hold : (run inputs).1.session ≠ zeroSession) (hnew : own ≠ zeroSession)
    (hne : (run inputs).1.session ≠ own) (hlater : ∀ i ∈ later, i.OfSession own)
    (hfirst : ∃ bytes feed nowNs rest, later = .frame bytes feed nowNs :: rest) :
    (∀ after, (Machine.run step (run inputs).1 later).2 =
        .sink (.onEvent (.sessionBoundary (run inputs).1.session own
          (wrappingAdd (run inputs).1.gen 1))) :: after →
        after = (run later).2.map
          (Output.mapGen fun g => wrappingAdd g (wrappingAdd (run inputs).1.gen 1))) ↔
      (run inputs).1.state = .dead ∨ (run inputs).1.w = 0 ∨ ¬ShowsWatermark 0 0 later := by
  have hs := run_alike inputs
  generalize (run inputs).1 = s at *
  obtain ⟨bytes, feed, nowNs, rest, rfl⟩ := hfirst
  obtain ⟨hdr, hhdr, hsess⟩ := hlater _ List.mem_cons_self
  by_cases hdead : s.state = .dead
  · refine iff_of_true (fun after heq => ?_) (Or.inl hdead)
    obtain ⟨answer, ho⟩ := run_dead hdead _ _ (heq ▸ List.mem_cons_self)
    cases ho
  · have hcount : Alike True id (s.countPacket bytes feed) (s.countPacket bytes feed) := hs.count _
    obtain ⟨hcrossed, hboundary⟩ := dispatchSession_crossed (s := s.countPacket bytes feed) hold hne
      hnew hs.mutation
    have hcross : Crossed own s ((s.countPacket bytes feed).dispatchSession own).1 :=
      { hcrossed with }
    have hb := (hcount.dispatchSession (fun _ => rfl) own).alike
    have hfresh := hcross.alike hb bytes feed
    have hrun := run_dispatch hs hnew hdead hhdr hsess feed nowNs rest hcross.session
      (by rw [hcross.state]; exact nofun)
    have hrun' : (run (.frame bytes feed nowNs :: rest)).2 = _ :=
      run_dispatch new_alike hnew nofun hhdr hsess feed nowNs rest
        (hfresh.session.symm.trans hcross.session)
        (by rw [(hfresh.state.symm.trans hcross.state : _ = State.init)]; exact nofun)
    have hcalls : ((new.countPacket bytes feed).dispatchSession own).2 = [] := by
      unfold dispatchSession sessionDispatch
      rw [if_pos (show (new.countPacket bytes feed).session = zeroSession from rfl)]
    have hsame := (hfresh.run (fun g => by unfold wrappingAdd; omega)
      (.frame bytes feed nowNs :: rest)).2
    rw [hcalls, List.map_nil, List.nil_append] at hrun'
    rw [hboundary] at hrun
    rw [hrun, hrun', ← hsame]
    generalize ((s.countPacket bytes feed).dispatchSession own).1 = b at *
    constructor
    · intro h
      right
      by_contra hvisible
      obtain ⟨hw, hshows⟩ := not_or.mp hvisible
      refine unanchored_shows hcross.toIdle hcross.state hcross.pendingTo hlater ?_
        (hcross.w ▸ hw) b.progressVt 0 (h _ rfl)
      rw [hcross.hbSeq, hcross.hbVt]
      exact not_not.mp hshows
    · rintro h after heq
      obtain rfl := (List.cons.inj heq).2
      rcases h with h | hw | hquiet
      · exact absurd h hdead
      · have hclock := clock_run hcross.toIdle (Or.inl hcross.state) hlater 0
        rw [hcross.w, hw] at hclock
        exact hclock.symm
      · refine unanchored_run hcross.toIdle hcross.state hcross.pendingTo hlater ?_ b.w 0
          b.progressVt 0
        rwa [hcross.hbSeq, hcross.hbVt]

end Boundary

theorem session_independence_anchored :
    let old : SessionId := ⟨List.replicate 10 65, rfl⟩
    let own : SessionId := ⟨List.replicate 10 66, rfl⟩
    let inputs : List Input := [.frame (makeFrame old 1 1) 0 10]
    let later : List Input := [.frame (makeFrame own 1 1) 0 20]
    ∀ after, (Machine.run step (run inputs).1 later).2 =
      .sink (.onEvent (.sessionBoundary old own 1)) :: after →
      after = (run later).2.map (Output.mapGen fun g => wrappingAdd g 1) := by
  intro old own inputs later
  have hparse : parseHeader (makeFrame own 1 1) = .ok ⟨own, 1, 1⟩ := by decide +kernel
  have hsession : (run inputs).1.session = old := by decide +kernel
  have hgen : wrappingAdd (run inputs).1.gen 1 = 1 := by decide +kernel
  have hown : ∀ i ∈ later, i.OfSession own := by
    intro i hi
    obtain rfl := List.mem_singleton.mp hi
    exact ⟨_, hparse, rfl⟩
  have hquiet : ¬ShowsWatermark 0 0 later := by
    simp only [later, ShowsWatermark, hparse]
    decide +kernel
  have hold : (run inputs).1.session ≠ zeroSession := by rw [hsession]; decide
  have h := (session_independence hold (by decide) (by rw [hsession]; decide) hown ⟨_, _, _, _, rfl⟩).mpr (Or.inr (Or.inr hquiet))
  rw [hsession, hgen] at h
  exact h

/-- The old watermark is reported as the final one of a session that delivered nothing. -/
theorem old_watermark_shown :
    let old : SessionId := ⟨List.replicate 10 65, rfl⟩
    let own : SessionId := ⟨List.replicate 10 66, rfl⟩
    let inputs : List Input := [.frame (makeFrame old 1 1) 0 10]
    let later : List Input := [.frame (makeEosFrame own 1) 0 20]
    (Machine.run step (run inputs).1 later).2 =
        [.sink (.onEvent (.sessionBoundary old own 1)), .sink (.onEvent (.endOfSession own 2 1))] ∧
      (run later).2.map (Output.mapGen fun g => wrappingAdd g 1) =
        [.sink (.onEvent (.endOfSession own 0 1))] := by
  decide +kernel

end Sequencer

end HftProj.Arbitrator
