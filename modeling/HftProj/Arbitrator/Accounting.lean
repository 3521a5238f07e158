import HftProj.Arbitrator.Calls
import HftProj.Arbitrator.Delivery
import HftProj.Arbitrator.Tally

/-!
# Message accounting

Every message that the sink receives is counted as emitted, whatever the frames. Every
block of an accepted data frame meets one fate: a duplicate behind the watermark,
delivered at it, staged inside the window or dropped beyond it, and each fate has its
count.
-/

namespace HftProj.Arbitrator

open HftProj.Lib HftProj.Protocol HftProj.Protocol.Moldudp64 HftProj.Protocol.Packet

/-! ## Fates -/

inductive Fate where
  | direct
  | dup
  | staged
  | beyond
  deriving DecidableEq

/-- The fate of block `q` of a frame from `first` on that meets the watermark `w`. -/
def fate (w first q : ℕ) : Fate :=
  if q < w then .dup
  else if first ≤ w then .direct
  else if q < w + WINDOW_SLOTS then .staged
  else .beyond

/-- The number of blocks of a frame with a fate. -/
def fates (w first count : ℕ) (f : Fate) : ℕ :=
  (List.range' first count).countP fun q => decide (fate w first q = f)

/-- Every block has one fate. -/
theorem fates_total (w first count : ℕ) :
    fates w first count .direct + fates w first count .dup + fates w first count .staged +
      fates w first count .beyond = count := by
  have hlist : ∀ qs : List ℕ, (qs.countP fun q => decide (fate w first q = .direct)) +
      (qs.countP fun q => decide (fate w first q = .dup)) +
      (qs.countP fun q => decide (fate w first q = .staged)) +
      (qs.countP fun q => decide (fate w first q = .beyond)) = qs.length := by
    intro qs
    induction qs with
    | nil => rfl
    | cons q qs ih =>
        simp only [List.countP_cons, List.length_cons]
        cases fate w first q <;> simp <;> omega
  rw [fates, fates, fates, fates, hlist, List.length_range']

theorem countP_lt_range' (w first count : ℕ) :
    ((List.range' first count).countP fun q => decide (q < w)) = min (w - first) count := by
  induction count generalizing first with
  | zero => simp
  | succ count ih =>
      rw [List.range'_succ, List.countP_cons, ih]
      by_cases h : first < w
      · rw [if_pos (decide_eq_true h)]
        omega
      · rw [if_neg (by simpa using h)]
        omega

theorem fates_dup (w first count : ℕ) : fates w first count .dup = min (w - first) count := by
  rw [← countP_lt_range', fates]
  apply List.countP_congr
  intro q _
  unfold fate
  split_ifs <;> simp_all

/-- At or behind the watermark nothing is staged. -/
theorem fates_contiguous {w first : ℕ} (h : first ≤ w) (count : ℕ) :
    fates w first count .staged = 0 ∧ fates w first count .beyond = 0 := by
  constructor
  · apply List.countP_eq_zero.mpr
    intro q _
    unfold fate
    split_ifs <;> simp
  · apply List.countP_eq_zero.mpr
    intro q _
    unfold fate
    split_ifs <;> simp

/-- Ahead of the watermark nothing is delivered, and the window decides. -/
theorem fates_gap {w first : ℕ} (h : w < first) (ds : List (List UInt8)) :
    fates w first ds.length .direct = 0 ∧ fates w first ds.length .dup = 0 ∧
      fates w first ds.length .beyond = Sequencer.beyond w (number first ds) := by
  have hq : ∀ q ∈ List.range' first ds.length, ¬q < w := by
    intro q hq
    rw [List.mem_range'_1] at hq
    omega
  refine ⟨?_, ?_, ?_⟩
  · apply List.countP_eq_zero.mpr
    intro q hmem
    unfold fate
    rw [if_neg (hq q hmem), if_neg (Nat.not_le.mpr h)]
    split_ifs <;> simp
  · apply List.countP_eq_zero.mpr
    intro q hmem
    unfold fate
    rw [if_neg (hq q hmem), if_neg (Nat.not_le.mpr h)]
    split_ifs <;> simp
  · have hmap : Sequencer.beyond w (number first ds) =
        ((number first ds).map Prod.fst).countP fun q => decide (w + WINDOW_SLOTS ≤ q) := by
      rw [List.countP_map]
      rfl
    rw [hmap, number_fst]
    apply List.countP_congr
    intro q hmem
    unfold fate
    rw [if_neg (hq q hmem), if_neg (Nat.not_le.mpr h)]
    split_ifs with hin
    · simp only [decide_false, Bool.false_eq_true, decide_eq_true_eq, false_iff]
      omega
    · simp only [decide_true, decide_eq_true_eq, true_iff]
      omega

/-- The messages that a call delivers under the numbers of its own frame. -/
def ownMessages (hdr : Header) (calls : List SinkCall) : List (ℕ × List UInt8) :=
  (messages calls).filter fun m => decide (hdr.seq ≤ m.1 ∧ m.1 < hdr.seq + hdr.count)

def Input.Accepted : Input → Prop
  | .frame bytes _ _ => Packet.Accepted bytes
  | _ => True

instance : DecidablePred Input.Accepted
  | .frame bytes _ _ => inferInstanceAs (Decidable (Packet.Accepted bytes))
  | .recoveryIntent _ => isTrue trivial
  | .sealDead _ => isTrue trivial

namespace Sequencer

/-! ## Every message is counted -/

section Emitted

variable {frame : List UInt8} {hdr : Header}

theorem applyFrame_emitted (s : Sequencer) (hhdr : parseHeader frame = .ok hdr)
    (last nowNs : ℕ) :
    let r := s.applyFrame frame hdr hdr.seq last nowNs
    r.1.tally.emitted = s.tally.emitted + (messages r.2).length := by
  unfold applyFrame
  dsimp only
  split
  · rw [s.applyContiguous_tally hhdr]
  · exact (s.applyGap_tally hhdr last nowNs).1

theorem messages_handleHeartbeat (s : Sequencer) (seq nowNs : ℕ) :
    messages (s.handleHeartbeat seq nowNs).2 = [] := by
  rcases s.handleHeartbeat_calls seq nowNs with h | h <;> rw [h] <;> rfl

theorem messages_handleEos (s : Sequencer) (hdr : Header) :
    messages (s.handleEos hdr).2 = [] := by
  rcases s.handleEos_calls hdr with h | h <;> rw [h] <;> rfl

theorem messages_dispatchSession (s : Sequencer) (next : SessionId) :
    messages (s.dispatchSession next).2 = [] := by
  unfold dispatchSession sessionDispatch
  dsimp only
  split_ifs <;> rfl

theorem ingestKind_emitted (s : Sequencer) (hhdr : parseHeader frame = .ok hdr) (feed : FeedId)
    (nowNs : ℕ) :
    let r := s.ingestKind frame hdr feed nowNs
    r.1.tally.emitted = s.tally.emitted + (messages r.2).length := by
  unfold ingestKind
  dsimp only
  split
  · rw [messages_handleHeartbeat, handleHeartbeat_tally]
    rfl
  split
  · rw [messages_handleEos, handleEos_tally]
    split <;> rfl
  unfold ingestData
  split
  · rfl
  cases hspan : hdr.span with
  | none => rfl
  | some span =>
      obtain ⟨first, last⟩ := span
      obtain ⟨rfl, -⟩ := Header.span_eq_some hspan
      dsimp only
      split
      · exact applyFrame_emitted _ hhdr last nowNs
      split
      · change (s.counters.recordDuplicate feed hdr.count).msgsEmitted = _
        unfold Counters.recordDuplicate Counters.feedMut
        split <;> rfl
      · exact applyFrame_emitted s hhdr last nowNs

/-- Every step counts the messages that it delivers. -/
theorem step_emitted (s : Sequencer) (i : Input) :
    (s.step i).1.tally.emitted = s.tally.emitted + (messages (sinkCalls (s.step i).2)).length := by
  cases i with
  | frame bytes feed nowNs =>
      have hcount := s.countPacket_tally bytes feed
      rw [step, sinkCalls_sink, ← hcount]
      dsimp only
      unfold ingest
      generalize s.countPacket bytes feed = t
      dsimp only
      split
      · rfl
      cases hhdr : parseHeader bytes with
      | error e => rfl
      | ok hdr =>
          dsimp only
          split
          · rfl
          rw [Traced.andThen_fst, Traced.andThen_snd, messages_append, messages_dispatchSession,
            List.nil_append, ingestKind_emitted _ hhdr, dispatchSession_tally]
  | recoveryIntent nowNs =>
      rw [step, checkRecoveryIntent_tally]
      rfl
  | sealDead reason =>
      rw [step, sinkCalls_sink, sealDead_tally]
      unfold sealDead
      split <;> rfl

end Emitted

/-! ## Every block has its count -/

section Frame

variable {frame : List UInt8} {hdr : Header} {first last : ℕ} {t : Sequencer}

/-- The four counts of a frame against the fates of its blocks. -/
structure Tallied (t : Sequencer) (r : Emitting) (hdr : Header) (n : Fate → ℕ) : Prop where
  direct : (ownMessages hdr r.2).length = n .direct
  dup : r.1.tally.dup = t.tally.dup + n .dup
  staged : r.1.tally.staged = t.tally.staged + n .staged
  beyond : r.1.tally.beyond = t.tally.beyond + n .beyond

/-- The blocks past the duplicate prefix are the frame's own messages; those that the drain
delivers lie behind the frame. -/
theorem ownMessages_contiguous (b : ReorderBuffer (List UInt8) WINDOW_SLOTS)
    (hf : DataFrame frame hdr first last) (hok : walkError frame hdr 0 = none) (skip : ℕ)
    {calls : List SinkCall} (hcalls : messages calls = []) (proof : LiveFeedProof) :
    (ownMessages hdr (deliver proof ((headerBlocks frame hdr).drop skip) ++
      (deliver proof (b.released (last + 1)) ++ calls))).length = hdr.count - skip := by
  obtain ⟨h₁, h₂, -, -⟩ := hf.bounds
  have hlen : (headerBlocks frame hdr).length = hdr.count := by
    have := hf.length_eq hok
    rw [hf.blocks, number_length]
    omega
  have hown : ((headerBlocks frame hdr).drop skip).filter
      (fun m => decide (hdr.seq ≤ m.1 ∧ m.1 < hdr.seq + hdr.count)) =
        (headerBlocks frame hdr).drop skip := by
    apply List.filter_eq_self.mpr
    intro m hm
    have hmem := List.mem_of_mem_drop hm
    rw [hf.blocks] at hmem
    have hbound := mem_number_bounds (p := m.1) (x := m.2) hmem
    have hle := hf.length_le
    apply decide_eq_true
    omega
  have hdrained : (b.released (last + 1)).filter
      (fun m => decide (hdr.seq ≤ m.1 ∧ m.1 < hdr.seq + hdr.count)) = [] := by
    apply List.filter_eq_nil_iff.mpr
    intro m hm
    have hbound := (ReorderBuffer.mem_released (q := m.1) (x := m.2)).mp hm
    rw [decide_eq_true_eq]
    omega
  unfold ownMessages
  rw [messages_append, messages_append, messages_deliver, messages_deliver, hcalls,
    List.append_nil, List.filter_append, hown, hdrained, List.append_nil, List.length_drop, hlen]

theorem applyContiguous_tallied (h : t.Coherent) (hf : DataFrame frame hdr first last)
    (hok : ∀ skip, walkError frame hdr skip = none) (hfirst : first ≤ t.w) (hlast : t.w ≤ last)
    (nowNs : ℕ) :
    Tallied t (t.applyContiguous frame hdr first last nowNs) hdr
      (fates t.w first hdr.count) := by
  obtain ⟨h₁, h₂, -, h₄⟩ := hf.bounds
  unfold seqLimit at h₄
  have htally := t.applyContiguous_tally hf.parsed last nowNs
  rw [← h₁, wrappingSub_of_le hfirst (by omega), ← fates_dup] at htally
  obtain ⟨win, -, -, -, hcalls⟩ := applyContiguous_ok h hf hfirst hlast nowNs (hok _)
  obtain ⟨hstaged, hbeyond⟩ := fates_contiguous hfirst hdr.count
  have htotal := fates_total t.w first hdr.count
  have hdup := fates_dup t.w first hdr.count
  constructor
  · rw [hcalls, ownMessages_contiguous h.buffer hf (hok 0) _ (messages_checkGapClose _ _)]
    omega
  · rw [htally]
  · rw [htally, hstaged]
    rfl
  · rw [htally, hbeyond]
    rfl

theorem applyGap_tallied (h : t.Coherent) (hf : DataFrame frame hdr first last)
    (hok : ∀ skip, walkError frame hdr skip = none) (hfirst : t.w < first) (nowNs : ℕ) :
    Tallied t (t.applyGap frame hdr first last nowNs) hdr (fates t.w first hdr.count) := by
  obtain ⟨h₁, h₂, -, -⟩ := hf.bounds
  have hlen : (payloads frame hdr).length = hdr.count := by
    have := hf.length_eq (hok 0)
    omega
  have hvalid : validPrefix (headerBlocks frame hdr) = headerBlocks frame hdr :=
    validPrefix_eq_self (walkError_none (hok 0)).2
  obtain ⟨hdirect, hdup, hbeyond⟩ := fates_gap hfirst (payloads frame hdr)
  rw [hlen] at hdirect hdup hbeyond
  have htotal := fates_total t.w first hdr.count
  obtain ⟨win, c, hstaged, hrun⟩ := applyGap_eq h hf hfirst nowNs
  rw [hok 0] at hrun
  obtain ⟨n, hc⟩ := hstaged.counters
  rw [hvalid, hf.blocks, h.buffer_next, ← hbeyond] at hc
  have hgap := t.gapEvidence_tally first
  have htally := t.applyGap_tally hf.parsed last nowNs
  rw [← h₁, hvalid, hf.blocks, number_length, hlen] at htally
  obtain ⟨-, hdup', hsum⟩ := htally
  have hbeyond' : (t.applyGap frame hdr first last nowNs).1.tally.beyond =
      t.tally.beyond + fates t.w first hdr.count .beyond := by
    rw [hrun, retirePending_tally, ← hgap]
    exact congrArg Counters.beyondWindowDropped hc
  constructor
  · rw [hrun, hdirect]
    unfold ownMessages
    rw [messages_gapEvidence]
    rfl
  · rw [hdup', hdup, Nat.add_zero]
  · omega
  · exact hbeyond'

theorem applyFrame_tallied (h : t.Coherent) (hf : DataFrame frame hdr first last)
    (hok : ∀ skip, walkError frame hdr skip = none) (hlast : t.w ≤ last) (nowNs : ℕ) :
    Tallied t (t.applyFrame frame hdr first last nowNs) hdr (fates t.w first hdr.count) := by
  unfold applyFrame
  split
  · rename_i hfirst
    exact applyContiguous_tallied h hf hok hfirst hlast nowNs
  · rename_i hfirst
    exact applyGap_tallied h hf hok (Nat.lt_of_not_le hfirst) nowNs

/-- Outside Ended an accepted data frame is tallied, from the watermark it meets. -/
theorem ingestData_tallied (h : t.Coherent) (hf : DataFrame frame hdr first last)
    (hok : ∀ skip, walkError frame hdr skip = none) (hended : t.state ≠ .ended) (feed : FeedId)
    (nowNs : ℕ) :
    Tallied t (t.ingestData frame hdr feed nowNs) hdr
      (fates (if t.state = .init then first else t.w) first hdr.count) := by
  obtain ⟨h₁, h₂, h₃, h₄⟩ := hf.bounds
  unfold ingestData
  rw [if_neg hended, hf.span]
  dsimp only
  by_cases hinit : t.state = .init
  · rw [if_pos hinit, if_pos hinit]
    have hanchor : Act (Carries frame hdr) t [] (t.anchorAt first nowNs) :=
      .anchor first hinit (by omega) rfl
    obtain ⟨d₁, d₂, d₃, d₄⟩ := applyFrame_tallied (hanchor.coherent h) hf hok h₃ nowNs
    exact ⟨d₁, d₂, d₃, d₄⟩
  rw [if_neg hinit, if_neg hinit]
  by_cases hlast : last < t.w
  · rw [if_pos hlast]
    have hdup : fates t.w first hdr.count .dup = hdr.count := by
      rw [fates_dup]
      omega
    have htotal := fates_total t.w first hdr.count
    have hrecord : ∀ c : Counters, (c.recordDuplicate feed hdr.count).dupMsgs =
        c.dupMsgs + hdr.count ∧ (c.recordDuplicate feed hdr.count).stagedMsgs = c.stagedMsgs ∧
        (c.recordDuplicate feed hdr.count).beyondWindowDropped = c.beyondWindowDropped := by
      intro c
      unfold Counters.recordDuplicate Counters.feedMut
      split <;> exact ⟨rfl, rfl, rfl⟩
    obtain ⟨r₁, r₂, r₃⟩ := hrecord t.counters
    constructor
    · change 0 = _
      omega
    · rw [hdup]
      exact r₁
    · rw [show fates t.w first hdr.count .staged = 0 by omega]
      exact r₂
    · rw [show fates t.w first hdr.count .beyond = 0 by omega]
      exact r₃
  · rw [if_neg hlast]
    exact applyFrame_tallied h hf hok (Nat.le_of_not_lt hlast) nowNs

end Frame

/-- The state in which the frame of a call is classified. -/
def arrived (s : Sequencer) (bytes : List UInt8) (feed : FeedId) (hdr : Header) : Sequencer :=
  ((s.countPacket bytes feed).dispatchSession hdr.session).1

/-- The header of a data frame processed outside Ended and Dead, with the watermark that it
meets. -/
def processed (s : Sequencer) : Input → Option (ℕ × Header)
  | .frame bytes feed _ =>
      match parseHeader bytes with
      | .error _ => none
      | .ok hdr =>
          let t := s.arrived bytes feed hdr
          if s.state = .dead ∨ t.state = .ended ∨ hdr.count = HEARTBEAT_COUNT ∨
              hdr.count = EOS_COUNT then none
          else some (if t.state = .init then hdr.seq else t.w, hdr)
  | _ => none

/-- The blocks of the processed frame, those with a fate, and its messages that the step
itself delivers. -/
def blocksProcessed (s : Sequencer) (i : Input) : ℕ := (s.processed i).elim 0 fun p => p.2.count

def blocksWith (f : Fate) (s : Sequencer) (i : Input) : ℕ :=
  (s.processed i).elim 0 fun p => fates p.1 p.2.seq p.2.count f

def emittedDirectly (s : Sequencer) (i : Input) : ℕ :=
  (s.processed i).elim 0 fun p => (ownMessages p.2 (sinkCalls (s.step i).2)).length

/-- The counts of a step are the fates of the blocks that it processes. -/
structure Accounted (s : Sequencer) (i : Input) : Prop where
  direct : s.emittedDirectly i = blocksWith .direct s i
  dup : (s.step i).1.tally.dup = s.tally.dup + blocksWith .dup s i
  staged : (s.step i).1.tally.staged = s.tally.staged + blocksWith .staged s i
  beyond : (s.step i).1.tally.beyond = s.tally.beyond + blocksWith .beyond s i

/-- A step that processes no data frame leaves the counts alone. -/
theorem accounted_of_idle {s : Sequencer} {i : Input} (h : s.processed i = none)
    (hdup : (s.step i).1.tally.dup = s.tally.dup)
    (hstaged : (s.step i).1.tally.staged = s.tally.staged)
    (hbeyond : (s.step i).1.tally.beyond = s.tally.beyond) : s.Accounted i := by
  have hnone : ∀ f, blocksWith f s i = 0 := fun f => by rw [blocksWith, h]; rfl
  constructor
  · rw [emittedDirectly, h, hnone]
    rfl
  · rw [hdup, hnone, Nat.add_zero]
  · rw [hstaged, hnone, Nat.add_zero]
  · rw [hbeyond, hnone, Nat.add_zero]

theorem arrived_coherent {s : Sequencer} (h : s.Coherent) (bytes : List UInt8) (feed : FeedId)
    (hdr : Header) : (s.arrived bytes feed hdr).Coherent :=
  (dispatchSession_dispatched _ hdr.session).coherent (h.of_core (s.countPacket_core bytes feed))

theorem arrived_tally (s : Sequencer) (bytes : List UInt8) (feed : FeedId) (hdr : Header) :
    (s.arrived bytes feed hdr).tally = s.tally := by
  rw [arrived, dispatchSession_tally, countPacket_tally]

/-- Behind the dispatch a data frame that is not processed moves no count. -/
theorem ingestKind_idle {t : Sequencer} {frame : List UInt8} {hdr : Header}
    (h : t.state = .ended ∨ hdr.count = HEARTBEAT_COUNT ∨ hdr.count = EOS_COUNT) (feed : FeedId)
    (nowNs : ℕ) : (t.ingestKind frame hdr feed nowNs).1.tally = t.tally := by
  unfold ingestKind
  split
  · exact handleHeartbeat_tally t hdr.seq nowNs
  split
  · rw [handleEos_tally]
    split <;> rfl
  rename_i hhb heos
  have hended := h.resolve_right (not_or.mpr ⟨hhb, heos⟩)
  rw [ingestData, if_pos hended]
  rfl

/-- Every step on accepted frames classifies each block exactly once. -/
theorem step_accounted {s : Sequencer} (h : s.Coherent) {i : Input} (hr : i.InRange)
    (hv : i.Accepted) : s.Accounted i := by
  have hidle : s.processed i = none → (s.step i).1.tally = s.tally → s.Accounted i := fun hp ht =>
    accounted_of_idle hp (by rw [ht]) (by rw [ht]) (by rw [ht])
  cases i with
  | recoveryIntent nowNs => exact hidle rfl (s.checkRecoveryIntent_tally nowNs)
  | sealDead reason => exact hidle rfl (s.sealDead_tally reason)
  | frame bytes feed nowNs =>
      have hcount := s.countPacket_tally bytes feed
      have hstate := state_of_core (s.countPacket_core bytes feed)
      cases hhdr : parseHeader bytes with
      | error e =>
          refine hidle (by rw [processed, hhdr]) ?_
          rw [step, ← hcount]
          dsimp only
          unfold ingest
          rw [hhdr]
          dsimp only
          split <;> rfl
      | ok hdr =>
          have hlen := (parseHeader_ok hhdr).1
          have hrun : s.ingest bytes feed nowNs = if s.state = .dead then
              ((s.countPacket bytes feed).count fun c =>
                { c with ignoredAfterDead := c.ignoredAfterDead + 1 }, [])
              else ((s.countPacket bytes feed).dispatchSession hdr.session).andThen
                fun t => t.ingestKind bytes hdr feed nowNs := by
            unfold ingest
            dsimp only
            rw [if_neg (Nat.not_lt.mpr hlen), hhdr]
            dsimp only
            rw [hstate]
          by_cases hdead : s.state = .dead
          · refine hidle (by rw [processed, hhdr]; exact if_pos (.inl hdead)) ?_
            rw [step, hrun, if_pos hdead]
            exact hcount
          rw [if_neg hdead] at hrun
          by_cases hskip : (s.arrived bytes feed hdr).state = .ended ∨
              hdr.count = HEARTBEAT_COUNT ∨ hdr.count = EOS_COUNT
          · refine hidle (by rw [processed, hhdr]; exact if_pos (.inr hskip)) ?_
            rw [step, hrun]
            exact (ingestKind_idle hskip feed nowNs).trans (s.arrived_tally bytes feed hdr)
          obtain ⟨hended, hkind⟩ := not_or.mp hskip
          obtain ⟨hhb, heos⟩ := not_or.mp hkind
          have hsound := hv.sound hhdr
          have hok := hsound.walkError hkind
          obtain ⟨⟨first, last⟩, hspan⟩ := Option.ne_none_iff_exists'.mp
            (show hdr.span ≠ none by unfold Sound at hsound; rw [if_neg hkind] at hsound; exact hsound.1)
          have hf : DataFrame bytes hdr first last := ⟨hhdr, hspan, hr hdr hhdr⟩
          have hprocessed : s.processed (.frame bytes feed nowNs) =
              some (if (s.arrived bytes feed hdr).state = .init then hdr.seq
                else (s.arrived bytes feed hdr).w, hdr) := by
            rw [processed, hhdr]
            exact if_neg (not_or.mpr ⟨hdead, hskip⟩)
          have hdata : ∀ t : Sequencer, t.ingestKind bytes hdr feed nowNs =
              t.ingestData bytes hdr feed nowNs := by
            intro t
            rw [ingestKind, if_neg hhb, if_neg heos]
          obtain ⟨d₁, d₂, d₃, d₄⟩ := ingestData_tallied (arrived_coherent h bytes feed hdr) hf hok
            hended feed nowNs
          rw [hf.bounds.1] at d₁ d₂ d₃ d₄
          rw [arrived_tally] at d₂ d₃ d₄
          have hmessages : ownMessages hdr (sinkCalls (s.step (.frame bytes feed nowNs)).2) =
              ownMessages hdr ((s.arrived bytes feed hdr).ingestData bytes hdr feed nowNs).2 := by
            rw [step, sinkCalls_sink, hrun, Traced.andThen_snd]
            unfold ownMessages
            rw [messages_append, messages_dispatchSession, List.nil_append, hdata]
            rfl
          have hafter : (s.step (.frame bytes feed nowNs)).1 =
              ((s.arrived bytes feed hdr).ingestData bytes hdr feed nowNs).1 := by
            rw [step, hrun, Traced.andThen_fst, hdata]
            rfl
          constructor
          · rw [emittedDirectly, blocksWith, hprocessed]
            exact (congrArg List.length hmessages).trans d₁
          · rw [blocksWith, hprocessed, hafter]
            exact d₂
          · rw [blocksWith, hprocessed, hafter]
            exact d₃
          · rw [blocksWith, hprocessed, hafter]
            exact d₄

/-- A batch with a duplicate, an overlap, a staged frame and one that fills the gap. -/
def mixedCalls : List Call :=
  anchored ++ [.ingestBatch true (tape [(2, 1, 0, 0), (1, 2, 0, 1), (6, 2, 0, 0), (2, 3, 0, 1)]) 20,
    .ingestEntriesLadder true false (tape [(8, 1, 0, 0)]) 30 none]

end Sequencer

end HftProj.Arbitrator
