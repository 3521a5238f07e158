import HftProj.Arbitrator.Alike
import HftProj.Protocol.Encode

/-!
# Rejected frames

A frame of the current session that strict validation rejects should leave no trace
but its telemetry. The ingest walk acts on each block before it has read the rest, so
whether the frame is inert depends on the state and on how the frame starts.
-/

namespace HftProj.Protocol.Packet

open HftProj.Lib Moldudp64

theorem exists_mem_numberWrapping {q : ℕ} {ds : List (List UInt8)} {d : List UInt8} (h : d ∈ ds) :
    ∃ p, (p, d) ∈ numberWrapping q ds := by
  induction ds generalizing q with
  | nil => cases h
  | cons e ds ih =>
      rcases List.mem_cons.mp h with rfl | h
      · exact ⟨q, List.mem_cons_self⟩
      · obtain ⟨p, hp⟩ := ih h
        exact ⟨p, List.mem_cons_of_mem _ hp⟩

/-- A walk from the first block finds the fault of a rejected data packet. -/
theorem walkError_of_rejected {frame : List UInt8} {hdr : Header}
    (hhdr : parseHeader frame = .ok hdr) (hrej : ¬Accepted frame) (hhb : hdr.count ≠ HEARTBEAT_COUNT)
    (heos : hdr.count ≠ EOS_COUNT) (hspan : hdr.span ≠ none) : walkError frame hdr 0 ≠ none := by
  intro hwalk
  obtain ⟨harea, hinvalid⟩ := walkError_none hwalk
  rw [List.drop_zero, firstInvalid_eq_none] at hinvalid
  apply hrej
  refine accepted_iff.mpr ⟨hdr, hhdr, ?_⟩
  unfold Sound
  rw [if_neg (not_or.mpr ⟨hhb, heos⟩)]
  refine ⟨hspan, harea, fun d hd => ?_⟩
  obtain ⟨p, hp⟩ := exists_mem_numberWrapping (q := hdr.seq) hd
  exact hinvalid (p, d) hp

end HftProj.Protocol.Packet

namespace HftProj.Arbitrator

open HftProj.Lib HftProj.Protocol HftProj.Protocol.Moldudp64 HftProj.Protocol.Packet

/-- The counters that a rejected packet must not move: all but those of packets and bytes
seen, of violations, and of packets ignored. -/
def Counters.settled (c : Counters) : Counters :=
  { c with
    feedA := { c.feedA with packets := 0, bytes := 0 }
    feedB := { c.feedB with packets := 0, bytes := 0 }
    violations := {}
    totalViolations := 0
    dataAfterEos := 0
    ignoredAfterDead := 0 }

namespace Sequencer

/-- A call that shows nothing and moves only the packet, byte and violation counters. -/
structure Untouched (s : Sequencer) (r : Emitting) : Prop where
  calls : r.2 = []
  w : r.1.w = s.w
  state : r.1.state = s.state
  gen : r.1.gen = s.gen
  session : r.1.session = s.session
  gapActive : r.1.gapActive = s.gapActive
  evidenceHwm : r.1.evidenceHwm = s.evidenceHwm
  window : r.1.window = s.window
  hbSeq : r.1.hbSeq = s.hbSeq
  hbVt : r.1.hbVt = s.hbVt
  progressVt : r.1.progressVt = s.progressVt
  pendingTo : r.1.pendingTo = s.pendingTo
  lastIntentVt : r.1.lastIntentVt = s.lastIntentVt
  counters : r.1.counters.settled = s.counters.settled

/-- When the frame finds a state in which its walk stops before it does anything. -/
def Inert (s : Sequencer) (frame : List UInt8) (hdr : Header) : Prop :=
  s.state = .dead ∨
    hdr.count ≠ HEARTBEAT_COUNT ∧ hdr.count ≠ EOS_COUNT ∧
      (s.state = .ended ∨ hdr.span = none ∨
        s.state ≠ .init ∧ validPrefix (headerBlocks frame hdr) = [] ∧
          (hdr.seq = s.w ∨ s.w < hdr.seq ∧ s.gapActive ∧ hdr.seq ≤ s.evidenceHwm))

section Rejected

variable {frame : List UInt8} {hdr : Header} {s : Sequencer}

/-- Telemetry and template aside, the state is the same. -/
structure Relabelled (s t : Sequencer) : Prop where
  same : t = { s with
    sessionLo := t.sessionLo, sessionHi := t.sessionHi, sessionLive := t.sessionLive,
    counters := t.counters }
  settled : t.counters.settled = s.counters.settled

theorem Relabelled.count (s : Sequencer) {c : Counters → Counters}
    (hc : (c s.counters).settled = s.counters.settled) : s.Relabelled (s.count c) := ⟨rfl, hc⟩

theorem Relabelled.untouched {s t : Sequencer} (h : s.Relabelled t) : s.Untouched (t, []) := by
  obtain ⟨hsame, hc⟩ := h
  rw [hsame]
  exact ⟨rfl, rfl, rfl, rfl, rfl, rfl, rfl, rfl, rfl, rfl, rfl, rfl, rfl, hc⟩

/-- A state that a call left untouched answers as before. -/
theorem Untouched.alike {r : Emitting} (h : s.Untouched r) (hs : Alike True id s s)
    (hmutation : r.1.mutation = .none) : Alike False id r.1 s where
  w := h.w
  gen := h.gen
  session := h.session
  state := h.state
  gapActive := h.gapActive
  evidenceHwm := h.evidenceHwm
  progressVt := h.progressVt
  hbSeq := h.hbSeq
  hbVt := h.hbVt
  pendingTo := h.pendingTo
  issued := fun _ => h.lastIntentVt
  counters := False.elim
  template := False.elim
  mutation := hmutation
  mutation' := hs.mutation'
  wBound := hs.wBound
  window := h.window ▸ hs.window

theorem Relabelled.untouched_iff {s t : Sequencer} (h : s.Relabelled t) {r : Emitting} :
    s.Untouched r ↔ t.Untouched r := by
  obtain ⟨hsame, hc⟩ := h
  rw [hsame] at hc ⊢
  constructor
  · intro hr
    exact { hr with counters := hr.counters.trans hc.symm }
  · intro hr
    exact { hr with counters := hr.counters.trans hc }

theorem Relabelled.inert_iff {s t : Sequencer} (h : s.Relabelled t) :
    s.Inert frame hdr ↔ t.Inert frame hdr := by
  rw [h.same]
  rfl

theorem Relabelled.trans {s t u : Sequencer} (h : s.Relabelled t) (h' : t.Relabelled u) :
    s.Relabelled u := by
  refine ⟨?_, h'.settled.trans h.settled⟩
  rw [h'.same, h.same]

/-- Counting the packet and finding the session unchanged leave the state the same. -/
theorem relabelled_dispatch (frame : List UInt8) (hs : s.session ≠ zeroSession) (feed : FeedId) :
    s.Relabelled ((s.countPacket frame feed).dispatchSession s.session).1 ∧
      ((s.countPacket frame feed).dispatchSession s.session).2 = [] := by
  have hcount : s.Relabelled (s.countPacket frame feed) := by
    refine Relabelled.count s ?_
    unfold Counters.feedMut Counters.settled
    dsimp only
    split <;> rfl
  have hrun : (s.countPacket frame feed).sessionDispatch s.session =
      (s.countPacket frame feed, []) := by
    unfold sessionDispatch
    rw [if_neg (show ¬(s.countPacket frame feed).session = zeroSession from hs),
      if_neg (show ¬(s.countPacket frame feed).session ≠ s.session from not_not.mpr rfl)]
  unfold dispatchSession
  dsimp only
  rw [hrun]
  refine ⟨?_, rfl⟩
  split
  · exact hcount.trans ⟨rfl, rfl⟩
  · exact hcount

/-- A rejected frame is handled by its kind, or ignored when the sequencer is sealed. -/
theorem ingest_of_session (hs : s.session ≠ zeroSession) (hhdr : parseHeader frame = .ok hdr)
    (hsess : hdr.session = s.session) (feed : FeedId) (nowNs : ℕ) :
    ∃ t, s.Relabelled t ∧
      (s.state = .dead ∧ s.ingest frame feed nowNs = (t, []) ∨
        s.state ≠ .dead ∧ s.ingest frame feed nowNs = t.ingestKind frame hdr feed nowNs) := by
  have hlen := (parseHeader_ok hhdr).1
  obtain ⟨hsame, hcalls⟩ := relabelled_dispatch frame hs feed
  unfold ingest
  dsimp only
  rw [if_neg (Nat.not_lt.mpr hlen), hhdr]
  dsimp only
  by_cases hdead : s.state = .dead
  · refine ⟨_, ?_, Or.inl ⟨hdead, if_pos hdead⟩⟩
    have hcount : s.Relabelled (s.countPacket frame feed) := by
      refine Relabelled.count s ?_
      unfold Counters.feedMut Counters.settled
      dsimp only
      split <;> rfl
    exact hcount.trans (Relabelled.count _ rfl)
  · refine ⟨_, hsame, Or.inr ⟨hdead, ?_⟩⟩
    rw [if_neg (show ¬(s.countPacket frame feed).state = .dead from hdead), hsess]
    unfold Traced.andThen
    rw [hcalls, List.nil_append]

/-- Every heartbeat is counted, whatever follows its header. -/
theorem handleHeartbeat_heartbeats (s : Sequencer) (seq nowNs : ℕ) :
    (s.handleHeartbeat seq nowNs).1.counters.heartbeats = s.counters.heartbeats + 1 := by
  have hgap : ∀ (t : Sequencer) x, (t.gapEvidence x).1.counters.heartbeats =
      t.counters.heartbeats := by
    intro t x
    unfold gapEvidence
    split
    · rfl
    · split <;> rfl
  unfold handleHeartbeat
  dsimp only [count]
  split_ifs
  · rfl
  · rfl
  · rfl
  · exact hgap _ seq
  · rfl

/-- So is every end of session. -/
theorem handleEos_counted (hdead : s.state ≠ .dead) (hdr : Header) :
    (s.handleEos hdr).1.counters.eosSeen + (s.handleEos hdr).1.counters.eosDup =
      s.counters.eosSeen + s.counters.eosDup + 1 := by
  unfold handleEos
  dsimp only [count]
  rw [if_neg hdead]
  split_ifs
  all_goals
    dsimp only
    omega

theorem Untouched.tally {r : Emitting} (h : s.Untouched r) : r.1.tally = s.tally :=
  (congrArg Counters.tally h.counters : r.1.counters.settled.tally = s.counters.settled.tally)

/-- Behind or at the watermark: the frame starts at the watermark and its first block fails. -/
theorem contiguous_untouched (hhdr : parseHeader frame = .ok hdr) (hw : s.w < 2 ^ 64)
    (hwalk : walkError frame hdr 0 ≠ none) {last : ℕ} (hlast : last = hdr.seq + (hdr.count - 1))
    (hcount : hdr.count ≠ 0) (hle : s.w ≤ last) (hfirst : hdr.seq ≤ s.w) (nowNs : ℕ) :
    s.Untouched (s.applyContiguous frame hdr hdr.seq last nowNs) ↔
      validPrefix (headerBlocks frame hdr) = [] ∧ hdr.seq = s.w := by
  have hskip : min (wrappingSub s.w hdr.seq) hdr.count = s.w - hdr.seq := by
    rw [wrappingSub_of_le hfirst hw]
    omega
  have hrun := s.applyContiguous_walk hhdr last nowNs
  rw [hskip] at hrun
  have hzero : hdr.seq = s.w → s.applyContiguous frame hdr hdr.seq last nowNs =
      ((s.count fun c => { c with
          dupMsgs := c.dupMsgs + 0
          msgsEmitted := c.msgsEmitted + (validPrefix (headerBlocks frame hdr)).length }).count
        fun c => c.recordPacketError ((walkError frame hdr 0).get (Option.ne_none_iff_isSome.mp hwalk)),
      deliver ⟨s.gen⟩ (validPrefix (headerBlocks frame hdr))) := by
    intro heq
    rw [hrun, heq, Nat.sub_self]
    obtain ⟨e, he⟩ := Option.ne_none_iff_exists'.mp hwalk
    simp only [he, Option.get_some, List.drop_zero]
  constructor
  · intro h
    have hdup := congrArg Tally.dup h.tally
    rw [s.applyContiguous_tally hhdr, hskip] at hdup
    have heq : hdr.seq = s.w := by
      dsimp only at hdup
      omega
    refine ⟨?_, heq⟩
    have hcalls := h.calls
    rw [hzero heq] at hcalls
    exact List.map_eq_nil_iff.mp hcalls
  · rintro ⟨hnil, heq⟩
    rw [hzero heq, hnil]
    exact (Relabelled.count s (c := fun c => ({ c with
      dupMsgs := c.dupMsgs + 0, msgsEmitted := c.msgsEmitted + 0 } : Counters).recordPacketError _)
      rfl).untouched

/-- Ahead of the watermark: the gap is known that far and the frame's first block fails. -/
theorem gap_untouched (hhdr : parseHeader frame = .ok hdr) (hwalk : walkError frame hdr 0 ≠ none)
    (hfirst : s.w < hdr.seq) (last nowNs : ℕ) :
    s.Untouched (s.applyGap frame hdr hdr.seq last nowNs) ↔
      validPrefix (headerBlocks frame hdr) = [] ∧ s.gapActive ∧ hdr.seq ≤ s.evidenceHwm := by
  obtain ⟨e, he⟩ := Option.ne_none_iff_exists'.mp hwalk
  have hrun := s.applyGap_walk hhdr last nowNs
  simp only [he] at hrun
  constructor
  · intro h
    obtain ⟨-, -, hstaged⟩ := s.applyGap_tally hhdr last nowNs
    rw [h.tally] at hstaged
    have hnil : validPrefix (headerBlocks frame hdr) = [] :=
      List.length_eq_zero_iff.mp (by omega)
    have hcalls := h.calls
    rw [hrun, Traced.andThen_snd, List.append_eq_nil_iff] at hcalls
    have hopen : s.gapActive := by
      by_contra hclosed
      rw [Bool.not_eq_true] at hclosed
      have hev := hcalls.1
      unfold gapEvidence at hev
      rw [if_pos ⟨hclosed, hfirst⟩] at hev
      cases hev
    refine ⟨hnil, hopen, ?_⟩
    have hhwm := h.evidenceHwm
    rw [hrun, Traced.andThen_fst] at hhwm
    have hev : s.gapEvidence hdr.seq = ({ s with evidenceHwm := max s.evidenceHwm hdr.seq }, []) := by
      simp [gapEvidence, hopen]
    rw [hev] at hhwm
    have hmax : max s.evidenceHwm hdr.seq = s.evidenceHwm := hhwm
    omega
  · rintro ⟨hnil, hopen, hle⟩
    have hev : s.gapEvidence hdr.seq = (s, []) := by
      unfold gapEvidence
      rw [if_neg (by simp [hopen]), if_pos hopen, Nat.max_eq_left hle]
    rw [hrun, hev, hnil]
    exact (Relabelled.count s (c := fun c => c.recordPacketError e) rfl).untouched

theorem ingestData_untouched (hhdr : parseHeader frame = .ok hdr) (hrej : ¬Accepted frame)
    (hw : s.w < 2 ^ 64) (hdead : s.state ≠ .dead) (hhb : hdr.count ≠ HEARTBEAT_COUNT)
    (heos : hdr.count ≠ EOS_COUNT) (feed : FeedId) (nowNs : ℕ) :
    s.Untouched (s.ingestData frame hdr feed nowNs) ↔ s.Inert frame hdr := by
  unfold Inert
  rcases s.ingestData_cases frame hdr feed nowNs with
    ⟨hended, hrun⟩ | ⟨hended, hspan, hrun⟩ | ⟨hended, first, last, hspan, hcase⟩
  · rw [hrun]
    simp only [hhb, heos, hended, true_or, ne_eq, not_false_eq_true, and_self, or_true, iff_true]
    exact (Relabelled.count s rfl).untouched
  · rw [hrun]
    simp only [hhb, heos, hspan, true_or, ne_eq, not_false_eq_true, and_self, or_true, iff_true]
    exact (Relabelled.count s rfl).untouched
  · have hwalk := walkError_of_rejected hhdr hrej hhb heos (by simp [hspan])
    obtain ⟨rfl, hlast, -, hpos, -⟩ := Header.span_eq_some hspan
    simp only [hdead, hhb, heos, hended, hspan, false_or, ne_eq, not_false_eq_true, true_and,
      reduceCtorEq]
    rcases hcase with ⟨hinit, hrun⟩ | ⟨hinit, hdup, hrun⟩ | ⟨hinit, hle, hrun⟩
    · rw [hrun]
      simp only [hinit, not_true_eq_false, false_and, iff_false]
      intro h
      have hstate := h.state
      rcases applyFrame_state (s.anchorAt hdr.seq nowNs) frame hdr hdr.seq last nowNs with
        hs | hs | hs
      all_goals
        rw [hs, hinit] at hstate
        cases hstate
    · rw [hrun]
      have hne : ¬(hdr.seq = s.w ∨ s.w < hdr.seq ∧ s.gapActive ∧ hdr.seq ≤ s.evidenceHwm) := by
        omega
      simp only [hne, and_false, iff_false]
      intro h
      have hcount := congrArg Tally.dup h.tally
      have hmoved : (s.count fun c => c.recordDuplicate feed hdr.count).tally.dup =
          s.tally.dup + hdr.count := by
        simp only [count, tally, Counters.tally, Counters.recordDuplicate]
      rw [hmoved] at hcount
      omega
    · rw [hrun]
      unfold applyFrame
      simp only [hinit, not_false_eq_true, true_and]
      by_cases hfirst : hdr.seq ≤ s.w
      · rw [if_pos hfirst, contiguous_untouched hhdr hw hwalk hlast hpos.ne' hle hfirst]
        have hnot : ¬s.w < hdr.seq := Nat.not_lt.mpr hfirst
        simp only [hnot, false_and, or_false]
      · rw [if_neg hfirst, gap_untouched hhdr hwalk (Nat.lt_of_not_le hfirst)]
        have hne : hdr.seq ≠ s.w := fun h => hfirst h.le
        simp only [hne, false_or, Nat.lt_of_not_le hfirst, true_and]

theorem ingestKind_untouched (hhdr : parseHeader frame = .ok hdr) (hrej : ¬Accepted frame)
    (hw : s.w < 2 ^ 64) (hmutation : s.mutation = .none) (hdead : s.state ≠ .dead)
    (feed : FeedId) (nowNs : ℕ) :
    s.Untouched (s.ingestKind frame hdr feed nowNs) ↔ s.Inert frame hdr := by
  unfold ingestKind
  by_cases hhb : hdr.count = HEARTBEAT_COUNT
  · rw [if_pos hhb]
    simp only [Inert, hdead, hhb, ne_eq, not_true_eq_false, false_and, or_false, iff_false]
    intro h
    have hcount := congrArg Counters.heartbeats h.counters
    have hmoved := s.handleHeartbeat_heartbeats hdr.seq nowNs
    simp only [Counters.settled] at hcount
    omega
  · rw [if_neg hhb]
    by_cases heos : hdr.count = EOS_COUNT
    · rw [if_pos heos, if_neg (by rw [hmutation]; exact nofun)]
      simp only [Inert, hdead, heos, ne_eq, not_true_eq_false, false_and, and_false, or_false,
        iff_false]
      intro h
      have hseen := congrArg Counters.eosSeen h.counters
      have hdup := congrArg Counters.eosDup h.counters
      have hmoved := handleEos_counted hdead hdr
      simp only [Counters.settled] at hseen hdup
      omega
    · rw [if_neg heos]
      exact ingestData_untouched hhdr hrej hw hdead hhb heos feed nowNs

end Rejected

/-- A rejected frame of the current session leaves no trace, now or later, exactly when it
finds the state inert. -/
theorem packet_atomicity {inputs : List Input} {frame : List UInt8} {hdr : Header}
    (hs : (run inputs).1.session ≠ zeroSession) (hhdr : parseHeader frame = .ok hdr)
    (hsess : hdr.session = (run inputs).1.session) (hrej : ¬Accepted frame) (feed : FeedId)
    (nowNs : ℕ) :
    ((run inputs).1.Untouched ((run inputs).1.ingest frame feed nowNs) ∧
        ∀ later, (Machine.run step ((run inputs).1.ingest frame feed nowNs).1 later).2 =
          (Machine.run step (run inputs).1 later).2) ↔
      (run inputs).1.Inert frame hdr := by
  have halike := run_alike inputs
  generalize (run inputs).1 = s at *
  obtain ⟨t, hst, hrun⟩ := ingest_of_session hs hhdr hsess feed nowNs
  have hstate : t.state = s.state := by rw [hst.same]
  have hw : t.w < 2 ^ 64 := by
    rw [hst.same]
    exact halike.wBound
  have hmutation : t.mutation = .none := by
    rw [hst.same]
    exact halike.mutation
  have hiff : s.Untouched (s.ingest frame feed nowNs) ↔ s.Inert frame hdr := by
    rcases hrun with ⟨hdead, hrun⟩ | ⟨hdead, hrun⟩
    · rw [hrun]
      exact iff_of_true hst.untouched (Or.inl hdead)
    · rw [hrun, hst.untouched_iff, hst.inert_iff]
      exact ingestKind_untouched hhdr hrej hw hmutation (hstate ▸ hdead) feed nowNs
  refine ⟨fun h => hiff.mp h.1, fun h => ⟨hiff.mpr h, fun later => ?_⟩⟩
  have hmutation' := (halike.ingest (fun _ => rfl) frame feed nowNs).alike.mutation
  have hsame := (hiff.mpr h).alike halike hmutation'
  rw [(hsame.run (fun _ => rfl) later).2, mapGen_id]

/-! ## A rejected frame that is delivered -/

/-- A System Event followed by a block of unknown type. -/
def halfValid : List UInt8 := buildPacket (SessionId.repeated 65) 1 [makeMsgS 1, [0]]

theorem packet_atomicity_ended :
    let inputs : List Input := [.frame (makeEosFrame ⟨List.replicate 10 65, rfl⟩ 1) 0 10]
    (run inputs).1.Untouched ((run inputs).1.ingest halfValid 0 20) ∧
      ∀ later, (Machine.run step ((run inputs).1.ingest halfValid 0 20).1 later).2 =
        (Machine.run step (run inputs).1 later).2 := by
  have hparse : parseHeader halfValid = .ok ⟨⟨List.replicate 10 65, rfl⟩, 1, 2⟩ := by
    decide
  intro inputs
  have hlive : (run inputs).1.session ≠ zeroSession := by decide
  refine (packet_atomicity hlive hparse (by decide) (by decide) 0 20).mpr ?_
  exact Or.inr ⟨by decide, by decide, Or.inl (by decide)⟩

/-- The valid prefix of the rejected frame is delivered, and delivered again when a valid copy
of the same messages arrives. -/
theorem halfValid_delivered_twice :
    let inputs : List Input := [.frame (makeHbFrame ⟨List.replicate 10 65, rfl⟩ 1) 0 10]
    let valid := makeFrame ⟨List.replicate 10 65, rfl⟩ 1 1
    (run inputs).1.sessionLive = true ∧ ¬Accepted halfValid ∧ Accepted valid ∧
      ¬(run inputs).1.Untouched ((run inputs).1.ingest halfValid 0 20) ∧
      (run (inputs ++ [.frame halfValid 0 20, .frame valid 1 30])).2 =
        [.sink (.onMsg ⟨0⟩ 1 (makeMsgS 1)), .sink (.onMsg ⟨0⟩ 1 (makeMsgS 1))] := by
  intro inputs valid
  have hcalls : ((run inputs).1.ingest halfValid 0 20).2 ≠ [] := by decide +kernel
  refine ⟨by decide, by decide, by decide, fun h => hcalls h.calls, ?_⟩
  decide +kernel

end Sequencer

end HftProj.Arbitrator
