import HftProj.Arbitrator.Requests
import HftProj.Protocol.Encode

/-!
# Recovery intents are well formed

An intent is meant to be made only for a watermark that a data frame of the current session
has anchored, and to ask for at least one and at most 65535 messages. The generator reads
neither the state nor the session, so a run keeps to this exactly when each evaluation that
answers finds the state in order.
-/

namespace HftProj.Arbitrator

open HftProj.Lib HftProj.Protocol HftProj.Protocol.Moldudp64 HftProj.Protocol.Packet

namespace Sequencer

/-! ## The anchor -/

/-- The session of the data frame the watermark was anchored on, after one more call; none
while the visit has had no such frame. -/
def anchorAfter (s : Sequencer) (anchor : Option SessionId) : Input → Option SessionId
  | .frame bytes feed _ =>
      match parseHeader bytes with
      | .error _ => anchor
      | .ok hdr =>
          if s.state = .dead then anchor
          else if (s.arrive bytes feed hdr.session).state = .init then
            if hdr.span = none then none else some hdr.session
          else anchor
  | _ => anchor

/-- The sequencer with the anchor kept beside it. -/
def watch (x : Sequencer × Option SessionId) (i : Input) :
    Traced (Sequencer × Option SessionId) Output :=
  (((x.1.step i).1, x.1.anchorAfter x.2 i), (x.1.step i).2)

theorem watch_run (s : Sequencer) (anchor : Option SessionId) (inputs : List Input) :
    (Machine.run watch (s, anchor) inputs).1.1 = (Machine.run step s inputs).1 := by
  induction inputs generalizing s anchor with
  | nil => rfl
  | cons i inputs ih => exact ih (s.step i).1 (s.anchorAfter anchor i)

/-- An answer asks from the watermark, anchored in the current session, for 1 to 65535
messages. -/
def WellFormed (x : Sequencer × Option SessionId) : Input → Prop
  | .recoveryIntent nowNs => ∀ intent ∈ (x.1.checkRecoveryIntent nowNs).2,
      x.2 = some x.1.session ∧ intent.fromSeq = x.1.w ∧ intent.fromSeq < intent.toExcl ∧
        intent.toExcl - intent.fromSeq ≤ MAX_WIRE_REQUEST
  | _ => True

/-- No evaluation finds a heartbeat trigger due before the anchor, a time trigger due with
nothing outstanding and the high mark behind the watermark, or a range due for a watermark
that a frame of the all-zero session anchored and another session took over. -/
def Orderly (x : Sequencer × Option SessionId) : Input → Prop
  | .recoveryIntent nowNs =>
      (x.2 = none → ¬(x.1.hbSeq > x.1.w ∧ nowNs - x.1.hbVt ≥ HB_TRIGGER_NS)) ∧
      (x.1.pendingTo = none → x.1.window.stagedCount > 0 →
        nowNs - x.1.progressVt ≥ TIME_TRIGGER_NS → x.1.w < x.1.window.maxStaged) ∧
      (x.2 = some zeroSession → x.1.session ≠ zeroSession → x.1.rangeEnd nowNs = none)
  | _ => True

instance (x : Sequencer × Option SessionId) : DecidablePred (Orderly x)
  | .recoveryIntent _ => by
      unfold Orderly
      infer_instance
  | .frame _ _ _ => isTrue trivial
  | .sealDead _ => isTrue trivial

/-- What every state of an orderly run satisfies. Without an anchor there is nothing staged
and nothing outstanding; an outstanding range fits a request from the watermark. -/
structure Vouched (s : Sequencer) (anchor : Option SessionId) : Prop where
  coherent : s.Coherent
  own : ∀ a, anchor = some a → a = s.session ∨ a = zeroSession
  idle : anchor = none → s.window.Emptied ∧ s.pendingTo = none ∧
    (s.state = .init ∨ s.state = .ended ∨ s.state = .dead)
  waiting : s.state = .init → anchor = none
  pending : ∀ p, s.pendingTo = some p → s.w < p ∧ p ≤ s.w + MAX_WIRE_REQUEST

theorem new_vouched : Vouched new none where
  coherent := new_coherent
  own := nofun
  idle _ := ⟨⟨rfl, rfl⟩, rfl, .inl rfl⟩
  waiting _ := rfl
  pending := nofun

section Vouched

variable {s t : Sequencer} {anchor : Option SessionId}

/-- Calls that leave watermark, session, window and outstanding range alone. -/
theorem Vouched.quiet (h : Vouched s anchor) (hcoh : t.Coherent) (hsession : t.session = s.session)
    (hw : t.w = s.w) (hpending : t.pendingTo = s.pendingTo) (hwin : t.window = s.window)
    (hstate : t.state = s.state ∨ t.state ≠ .init ∧
      (s.state = .init ∨ s.state = .ended ∨ s.state = .dead →
        t.state = .ended ∨ t.state = .dead)) : Vouched t anchor where
  coherent := hcoh
  own a ha := hsession ▸ h.own a ha
  idle ha := by
    obtain ⟨h₁, h₂, h₃⟩ := h.idle ha
    refine ⟨hwin ▸ h₁, hpending.trans h₂, ?_⟩
    rcases hstate with hs | ⟨-, hs⟩
    · rw [hs]
      exact h₃
    · exact .inr (hs h₃)
  waiting hinit := by
    rcases hstate with hs | ⟨hs, -⟩
    · exact h.waiting (hs ▸ hinit)
    · exact absurd hinit hs
  pending p hp := by
    rw [hw]
    exact h.pending p (hpending ▸ hp)

theorem Vouched.noted (h : Vouched s anchor) (hcore : t.core = s.core) (hg : t.gauges = s.gauges)
    (hwin : t.window = s.window) : Vouched t anchor :=
  h.quiet (h.coherent.of_core hcore) (session_of_core hcore) (w_of_core hcore)
    (congrArg Gauges.pendingTo hg) hwin (.inl (state_of_core hcore))

theorem Vouched.max_request (h : Vouched s anchor) :
    wrappingAdd s.w MAX_WIRE_REQUEST = s.w + MAX_WIRE_REQUEST := by
  have hw := h.coherent.wBound
  unfold seqLimit at hw
  exact wrappingAdd_of_lt (by unfold MAX_WIRE_REQUEST; omega)

/-- In an unanchored state only the heartbeat trigger can fire. -/
theorem Vouched.idle_target (h : Vouched s anchor) (ha : anchor = none) (nowNs : ℕ) :
    s.intentTarget nowNs =
      if s.hbSeq > s.w ∧ nowNs - s.hbVt ≥ HB_TRIGGER_NS then some s.hbSeq else none := by
  obtain ⟨⟨hcount, hmax⟩, -, -⟩ := h.idle ha
  unfold intentTarget
  rw [if_neg (by rw [hcount, hmax]; omega)]

/-- An orderly evaluation is one whose answer is well formed. -/
theorem Vouched.wellFormed_iff (h : Vouched s anchor) (nowNs : ℕ) :
    WellFormed (s, anchor) (.recoveryIntent nowNs) ↔ Orderly (s, anchor) (.recoveryIntent nowNs) := by
  have hmax := h.max_request
  have hanswer : WellFormed (s, anchor) (.recoveryIntent nowNs) ↔
      ∀ stop, s.rangeEnd nowNs = some stop → anchor = some s.session ∧
        s.w < stop.toExcl s.w ∧ stop.toExcl s.w - s.w ≤ MAX_WIRE_REQUEST := by
    simp only [WellFormed, checkRecoveryIntent_answer, Option.mem_def, Option.map_eq_some_iff,
      forall_exists_index, and_imp, forall_apply_eq_imp_iff₂, true_and]
  rw [hanswer]
  constructor
  · intro hwf
    refine ⟨fun ha hdue => ?_, fun hp hcount hdue => ?_, fun ha hs => ?_⟩
    · obtain ⟨-, hp, -⟩ := h.idle ha
      have ht := (h.idle_target ha nowNs).trans (if_pos hdue)
      have hown := (hwf _ (rangeEnd_of_target ht hp)).1
      cases (show anchor = none from ha).symm.trans hown
    · have ht : s.intentTarget nowNs = some s.window.maxStaged := if_pos (.inr ⟨hcount, hdue⟩)
      obtain ⟨-, hlt, -⟩ := hwf _ (rangeEnd_of_target ht hp)
      exact lt_of_lt_of_le hlt (Nat.min_le_left _ _)
    · by_contra hne
      obtain ⟨stop, hstop⟩ := Option.ne_none_iff_exists'.mp hne
      have hown := (hwf stop hstop).1
      exact hs (Option.some.inj (hown.symm.trans ha))
  · rintro ⟨hidle, htime, hover⟩ stop hstop
    have hanchored : anchor = some s.session := by
      cases hanchor : anchor with
      | none =>
          obtain ⟨-, hp, -⟩ := h.idle hanchor
          obtain ⟨t, -, ht⟩ := target_of_rangeEnd hstop hp
          rw [h.idle_target hanchor, if_neg (hidle hanchor)] at ht
          cases ht
      | some a =>
          rcases h.own a hanchor with rfl | rfl
          · rfl
          · by_cases hs : s.session = zeroSession
            · rw [hs]
            · exact absurd (hover hanchor hs) (by rw [hstop]; nofun)
    refine ⟨hanchored, ?_⟩
    cases stop with
    | outstanding p =>
        obtain ⟨h₁, h₂⟩ := h.pending p (rangeEnd_outstanding hstop)
        exact ⟨h₁, Nat.sub_le_iff_le_add'.mpr h₂⟩
    | trigger t =>
        obtain ⟨ht, hpast⟩ := rangeEnd_trigger hstop
        have hlt : s.w < t := by
          rcases intentTarget_cases ht with ⟨-, hw⟩ | ⟨rfl, hcount, hdue⟩ | ⟨-, hw, -⟩
          · exact hw
          · cases hp : s.pendingTo with
            | none => exact htime hp hcount hdue
            | some p =>
                have hp' := (h.pending p hp).1
                exact hp'.trans (lt_of_lt_of_le (hpast p hp) (Nat.min_le_left _ _))
          · exact hw
        rw [RangeEnd.toExcl, hmax]
        unfold MAX_WIRE_REQUEST
        omega

/-- An orderly evaluation leaves an outstanding range that fits. -/
theorem Vouched.recoveryIntent (h : Vouched s anchor) {nowNs : ℕ}
    (ho : Orderly (s, anchor) (.recoveryIntent nowNs)) :
    Vouched (s.checkRecoveryIntent nowNs).1 anchor := by
  have hcore := s.checkRecoveryIntent_core nowNs
  have hwf := (h.wellFormed_iff nowNs).mpr ho
  have hanswer := s.checkRecoveryIntent_answer nowNs
  have hpending := s.checkRecoveryIntent_pending nowNs
  cases hstop : s.rangeEnd nowNs with
  | none =>
      rw [hstop] at hpending
      exact h.quiet (h.coherent.of_core hcore) (session_of_core hcore) (w_of_core hcore) hpending
        (s.checkRecoveryIntent_keeps nowNs).1 (.inl (state_of_core hcore))
  | some stop =>
      rw [hstop] at hanswer hpending
      obtain ⟨hanchor, -, hlt, hle⟩ := hwf _ (by rw [hanswer]; rfl)
      dsimp only at hanchor hlt hle
      cases stop with
      | outstanding p =>
          exact h.quiet (h.coherent.of_core hcore) (session_of_core hcore) (w_of_core hcore)
            hpending (s.checkRecoveryIntent_keeps nowNs).1 (.inl (state_of_core hcore))
      | trigger t =>
          refine ⟨h.coherent.of_core hcore, ?_, ?_, ?_, ?_⟩
          · rw [session_of_core hcore]
            exact h.own
          · intro ha
            cases ha.symm.trans hanchor
          · rw [state_of_core hcore]
            exact h.waiting
          · intro p hp
            cases hpending.symm.trans hp
            rw [w_of_core hcore]
            omega

theorem Vouched.sealDead (h : Vouched s anchor) (reason : DeadReason) :
    Vouched (s.sealDead reason).1 anchor := by
  have hacts : Acts (fun _ _ => False) s _ _ := s.sealDead_acts reason
  have hcoh := hacts.coherent h.coherent
  unfold Sequencer.sealDead at hcoh ⊢
  split_ifs at hcoh ⊢ with hd
  · exact h.quiet hcoh rfl rfl rfl rfl (.inr ⟨nofun, fun _ => .inr rfl⟩)
  · exact h

/-- The anchor behind the dispatch of a frame. -/
theorem Vouched.arrive (h : Vouched s anchor) {next : SessionId} (ha : Arrived next s t) :
    Vouched t (if t.state = .init then none else anchor) := by
  cases ha with
  | kept hs hcore hgauges hvt hwin =>
      have hcoh : t.Coherent := Coherent.of_core hcore { h.coherent with }
      have hstate : t.state = s.state := (state_of_core hcore :)
      have hsession : t.session = next := session_of_core hcore
      have hw : t.w = s.w := (w_of_core hcore :)
      have hpending : t.pendingTo = s.pendingTo := congrArg Gauges.pendingTo hgauges
      have hsame : (if t.state = .init then none else anchor) = anchor := by
        split
        · rename_i hinit
          exact (h.waiting (hstate ▸ hinit)).symm
        · rfl
      rw [hsame]
      refine ⟨hcoh, fun a ha => ?_, ?_, hstate ▸ h.waiting, ?_⟩
      · rw [hsession]
        rcases h.own a ha with rfl | rfl
        · exact hs.symm
        · exact .inr rfl
      · rw [hwin, hpending, hstate]
        exact h.idle
      · rw [hw, hpending]
        exact h.pending
  | crossed h0 hn hcore hgauges hmax =>
      obtain ⟨hcross, hcount⟩ := crossTo_coherent h.coherent next
      have hcoh : t.Coherent := hcross.of_core hcore
      have hstate : t.state = .init := (state_of_core hcore).trans rfl
      have hpending : t.pendingTo = none := congrArg Gauges.pendingTo hgauges
      rw [if_pos hstate]
      refine ⟨hcoh, nofun, fun _ => ⟨⟨?_, hmax⟩, hpending, .inl hstate⟩, fun _ => rfl, ?_⟩
      · rw [stagedCount_of_core hcore]
        exact hcount
      · rw [hpending]
        exact nofun

section Frame

variable {bytes : List UInt8} {hdr : Header} {first last : ℕ}

theorem Vouched.heartbeat (h : Vouched s anchor) (seq nowNs : ℕ) :
    Vouched (s.handleHeartbeat seq nowNs).1 anchor := by
  have hacts : Acts (fun _ _ => False) s _ _ := s.handleHeartbeat_acts seq nowNs
  have hkeeps := s.handleHeartbeat_keeps seq nowNs
  refine h.quiet (hacts.coherent h.coherent) hkeeps.session hkeeps.w hkeeps.pendingTo
    hkeeps.window ?_
  rcases s.handleHeartbeat_state seq nowNs with hst | ⟨h₁, h₂, h₃, hst⟩
  · exact .inl hst
  · refine .inr ⟨by rw [hst]; nofun, ?_⟩
    rintro (hs | hs | hs)
    · exact absurd hs h₁
    · exact absurd hs h₂
    · exact absurd hs h₃

theorem Vouched.eos (h : Vouched s anchor) (hdr : Header) : Vouched (s.handleEos hdr).1 anchor := by
  have hacts : Acts (fun _ _ => False) s _ _ := s.handleEos_acts hdr
  have hkeeps := s.handleEos_keeps hdr
  refine h.quiet (hacts.coherent h.coherent) hkeeps.session hkeeps.w hkeeps.pendingTo
    hkeeps.window ?_
  rcases s.handleEos_state hdr with ⟨-, hst⟩ | ⟨-, hst⟩ | ⟨h₁, h₂, h₃, hst⟩
  · exact .inr ⟨by rw [hst]; nofun, fun _ => .inl hst⟩
  · exact .inl hst
  · refine .inr ⟨by rcases hst with hst | hst <;> rw [hst] <;> nofun, ?_⟩
    rintro (hs | hs | hs)
    · exact absurd hs h₁
    · exact absurd hs h₂
    · exact absurd hs h₃

/-- An applied data frame of the anchor's session keeps the outstanding range ahead. -/
theorem Vouched.applied (h : Vouched s anchor) {a : SessionId} (hf : DataFrame bytes hdr first last)
    (hlast : s.w ≤ last) (hinit : s.state ≠ .init) (ha : a = s.session ∨ a = zeroSession)
    (nowNs : ℕ) : Vouched (s.applyFrame bytes hdr first last nowNs).1 (some a) := by
  have hcoh := (applyFrame_acts h.coherent hf hlast nowNs).coherent h.coherent
  have hw := applyFrame_w_le h.coherent hf hlast nowNs
  have hsession : (s.applyFrame bytes hdr first last nowNs).1.session = s.session :=
    (applyFrame_acts h.coherent hf hlast nowNs).sourced h.coherent |>.1
  have hg := s.applyFrame_gauges hf.parsed last nowNs
  rw [← hf.bounds.1] at hg
  refine ⟨hcoh, ?_, nofun, ?_, ?_⟩
  · rintro _ ⟨⟩
    rw [hsession]
    exact ha
  · intro hst
    rcases s.applyFrame_state bytes hdr first last nowNs with hs | hs | hs
    · exact absurd (hs.symm.trans hst) hinit
    · cases hs.symm.trans hst
    · cases hs.symm.trans hst
  · intro p hp
    rcases hg with ⟨hg, hsame⟩ | hg
    · rw [hsame]
      exact h.pending p ((congrArg Gauges.pendingTo hg).symm.trans hp)
    · have hretired := (congrArg Gauges.pendingTo hg).symm.trans hp
      obtain ⟨hs, hlt⟩ := Option.filter_eq_some_iff.mp hretired
      have hle := (h.pending p hs).2
      exact ⟨of_decide_eq_true hlt, by omega⟩

theorem Vouched.anchored (h : Vouched s none) {first : ℕ} (hfirst : first ≤ seqLimit)
    (hinit : s.state = .init) (nowNs : ℕ) :
    Vouched (s.anchorAt first nowNs) (some s.session) where
  coherent := by
    have hact : Act (fun _ _ => False) s [] (s.anchorAt first nowNs) :=
      .anchor first hinit hfirst rfl
    exact hact.coherent h.coherent
  own := by
    rintro _ ⟨⟩
    exact .inl rfl
  idle := nofun
  waiting := nofun
  pending p hp := by
    cases (h.idle rfl).2.1.symm.trans hp

theorem Vouched.data (h : Vouched s anchor) (hhdr : parseHeader bytes = .ok hdr)
    (hr : hdr.seq < 2 ^ 64 - 2 ^ 17) (hsession : s.session = hdr.session)
    (hlive : s.state ≠ .dead) (feed : FeedId) (nowNs : ℕ) :
    Vouched (s.ingestData bytes hdr feed nowNs).1
      (if s.state = .init then if hdr.span = none then none else some hdr.session else anchor) := by
  rcases s.ingestData_cases bytes hdr feed nowNs with ⟨hst, hrun⟩ | ⟨-, hspan, hrun⟩ |
    ⟨hended, first, last, hspan, ⟨hinit, hrun⟩ | ⟨hinit, -, hrun⟩ | ⟨hinit, hlast, hrun⟩⟩
  all_goals rw [hrun]
  · rw [if_neg (by rw [hst]; nofun)]
    exact h.noted rfl rfl rfl
  · have hsame : (if s.state = .init then if hdr.span = none then none else some hdr.session
        else anchor) = anchor := by
      by_cases hinit : s.state = .init
      · rw [if_pos hinit, if_pos hspan, h.waiting hinit]
      · rw [if_neg hinit]
    rw [hsame]
    exact h.noted rfl rfl rfl
  · have hf : DataFrame bytes hdr first last := ⟨hhdr, hspan, hr⟩
    obtain ⟨-, -, hle, hlim⟩ := hf.bounds
    obtain rfl := h.waiting hinit
    rw [if_pos hinit, if_neg (by rw [hspan]; nofun), ← hsession]
    exact (h.anchored (by omega) hinit nowNs).applied hf hle nofun (.inl rfl) nowNs
  · rw [if_neg hinit]
    refine h.noted ?_ rfl rfl
    unfold Counters.recordDuplicate Counters.feedMut
    dsimp only [count]
    split <;> rfl
  · rw [if_neg hinit]
    have hf : DataFrame bytes hdr first last := ⟨hhdr, hspan, hr⟩
    cases hanchor : anchor with
    | none =>
        rcases (h.idle hanchor).2.2 with hs | hs | hs
        · exact absurd hs hinit
        · exact absurd hs hended
        · exact absurd hs hlive
    | some a => exact h.applied hf hlast hinit (h.own a hanchor) nowNs

theorem Vouched.kind (h : Vouched s anchor) (hhdr : parseHeader bytes = .ok hdr)
    (hr : hdr.seq < 2 ^ 64 - 2 ^ 17) (hsession : s.session = hdr.session)
    (hlive : s.state ≠ .dead) (feed : FeedId) (nowNs : ℕ) :
    Vouched (s.ingestKind bytes hdr feed nowNs).1
      (if s.state = .init then if hdr.span = none then none else some hdr.session else anchor) := by
  have hcontrol : hdr.span = none → (if s.state = .init then
      if hdr.span = none then none else some hdr.session else anchor) = anchor := by
    intro hspan
    by_cases hinit : s.state = .init
    · rw [if_pos hinit, if_pos hspan, h.waiting hinit]
    · rw [if_neg hinit]
  unfold ingestKind
  split
  · rename_i hhb
    rw [hcontrol (if_pos (.inl hhb))]
    exact h.heartbeat hdr.seq nowNs
  · split
    · rename_i heos
      rw [hcontrol (if_pos (.inr heos)), if_neg (by rw [h.coherent.mutation]; nofun)]
      exact h.eos hdr
    · exact h.data hhdr hr hsession hlive feed nowNs

end Frame

/-- Every call in range that is orderly keeps the state vouched for. -/
theorem Vouched.step (h : Vouched s anchor) {i : Input} (hr : i.InRange)
    (ho : Orderly (s, anchor) i) : Vouched (s.step i).1 (s.anchorAfter anchor i) := by
  cases i with
  | recoveryIntent nowNs => exact h.recoveryIntent ho
  | sealDead reason => exact h.sealDead reason
  | frame bytes feed nowNs =>
      have hcore := s.countPacket_core bytes feed
      change Vouched (s.ingest bytes feed nowNs).1 _
      cases hhdr : parseHeader bytes with
      | error e =>
          have hkept : s.anchorAfter anchor (.frame bytes feed nowNs) = anchor := by
            rw [anchorAfter, hhdr]
          rw [hkept]
          unfold ingest
          rw [hhdr]
          dsimp only
          split
          · exact h.noted (t := (s.countPacket bytes feed).count _) hcore rfl rfl
          · exact h.noted (t := (s.countPacket bytes feed).count fun c => c.recordFrameError e) hcore
              rfl rfl
      | ok hdr =>
          rw [anchorAfter, hhdr]
          dsimp only
          by_cases hdead : s.state = .dead
          · have hrun : (s.ingest bytes feed nowNs).1 = (s.countPacket bytes feed).count
                fun c => { c with ignoredAfterDead := c.ignoredAfterDead + 1 } := by
              unfold ingest
              dsimp only
              rw [if_neg (Nat.not_lt.mpr (parseHeader_ok hhdr).1), hhdr]
              exact congrArg Prod.fst (if_pos hdead)
            rw [if_pos hdead, hrun]
            exact h.noted (t := (s.countPacket bytes feed).count _) hcore rfl rfl
          · rw [if_neg hdead]
            have harrive := h.arrive (s.arrive_arrived bytes feed hdr.session)
            have hlive : (s.arrive bytes feed hdr.session).state ≠ .dead :=
              dispatched_live (dispatchSession_dispatched (s.countPacket bytes feed) hdr.session)
                hdead
            have hsession := dispatched_session
              (dispatchSession_dispatched (s.countPacket bytes feed) hdr.session)
            have hnext := harrive.kind hhdr (hr hdr hhdr) hsession hlive feed nowNs
            rw [ingest_eq hdead hhdr feed nowNs, Traced.andThen_fst]
            have hsame : ∀ x : Option SessionId,
                (if (s.arrive bytes feed hdr.session).state = .init then x
                  else if (s.arrive bytes feed hdr.session).state = .init then none else anchor) =
                if (s.arrive bytes feed hdr.session).state = .init then x else anchor := by
              intro x
              split <;> rfl
            rw [hsame] at hnext
            exact hnext

end Vouched

/-! ## Every run -/

/-- In a run in range every answer is well formed exactly when every evaluation that answers
is orderly. -/
theorem intents_well_formed_iff (inputs : List Input) (hr : ∀ i ∈ inputs, i.InRange) :
    Machine.Along watch WellFormed (new, none) inputs ↔
      Machine.Along watch Orderly (new, none) inputs := by
  have hiff : ∀ x : Sequencer × Option SessionId, Vouched x.1 x.2 → ∀ i,
      WellFormed x i ↔ Orderly x i := by
    rintro ⟨s, anchor⟩ h i
    cases i with
    | recoveryIntent nowNs => exact h.wellFormed_iff nowNs
    | frame bytes feed nowNs => exact Iff.rfl
    | sealDead reason => exact Iff.rfl
  exact Machine.along_iff_of_invariant (P := fun x => Vouched x.1 x.2)
    (fun x i h (hi : i.InRange) hc => h.step hi ((hiff x h i).mp hc)) (fun x i h _ => hiff x h i)
    new_vouched inputs hr

/-- A gap behind the anchor of a session, asked for after the trigger time. -/
def gapAsked : List Input :=
  [.frame (makeFrame (SessionId.repeated 65) 1 1) 0 10,
    .frame (makeFrame (SessionId.repeated 65) 5 1) 0 20, .recoveryIntent 300020]

theorem intents_well_formed_iff_gap : Machine.Along watch WellFormed (new, none) gapAsked :=
  (intents_well_formed_iff gapAsked (by decide +kernel)).mpr (by decide +kernel)

/-- A heartbeat before any data frame has the range from an unanchored watermark requested. -/
theorem unanchored_intent :
    ¬(∀ inputs, (∀ i ∈ inputs, Input.InRange i) →
      Machine.Along watch WellFormed (new, none) inputs) := by
  intro h
  have hwf := (h [.frame (makeHbFrame ⟨List.replicate 10 65, rfl⟩ 5) 0 10, .recoveryIntent 300020]
    (by decide +kernel)).2.1
  have hanchor := (hwf ⟨0, 5⟩ (by decide +kernel)).1
  exact absurd hanchor (by decide +kernel)

end Sequencer

end HftProj.Arbitrator
