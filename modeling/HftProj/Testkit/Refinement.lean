import HftProj.Arbitrator.Delivery
import HftProj.Protocol.Encode
import HftProj.Testkit.Reference

/-!
# The sequencer refines the reference arbitrator

Without an end of session, and as long as the window dropped nothing, the sequencer
delivers the stream of every session visit, and so does the reference arbitrator. Both
streams depend on the blocks of the visits only, not on their order of arrival.
-/

namespace HftProj.Testkit

open HftProj.Lib HftProj.Protocol HftProj.Protocol.Moldudp64 HftProj.Protocol.Packet
open HftProj.Arbitrator HftProj.Arbitrator.Sequencer

/-- A visit of a session: its frames in order of arrival. -/
structure Visit where
  session : SessionId
  frames : List (List UInt8)

/-- The numbered blocks of a frame. -/
def frameBlocks (bytes : List UInt8) : List (ℕ × List UInt8) :=
  match parseHeader bytes with
  | .ok hdr => headerBlocks bytes hdr
  | .error _ => []

def Visit.blocks (v : Visit) : List (ℕ × List UInt8) := v.frames.flatMap frameBlocks

/-- What the oracle records of a visit. -/
def Visit.log (v : Visit) : SessionId × List (ℕ × List UInt8) := (v.session, v.blocks)

/-- A frame joins the current visit if the session is the same, and opens one otherwise. -/
def enter (vs : List Visit) : Input → List Visit
  | .frame bytes _ _ =>
      match parseHeader bytes with
      | .error _ => vs
      | .ok hdr =>
          match vs with
          | [] => [⟨hdr.session, [bytes]⟩]
          | v :: older =>
              if v.session = hdr.session then ⟨v.session, v.frames ++ [bytes]⟩ :: older
              else ⟨hdr.session, [bytes]⟩ :: v :: older
  | _ => vs

/-- The session visits of a run's inputs, most recent visit first. -/
def visits (inputs : List Input) : List Visit := inputs.foldl enter []

theorem visits_snoc (inputs : List Input) (i : Input) :
    visits (inputs ++ [i]) = enter (visits inputs) i := by
  simp [visits, List.foldl_append]

/-- Accepted data and heartbeat frames of non-zero sessions, clear of the top of the range,
and recovery intents. -/
def Fed : Input → Prop
  | .frame bytes _ _ => Accepted bytes ∧ ∀ hdr, parseHeader bytes = .ok hdr →
      hdr.seq < 2 ^ 64 - 2 ^ 17 ∧ hdr.session ≠ zeroSession ∧ hdr.count ≠ EOS_COUNT
  | .recoveryIntent _ => True
  | .sealDead _ => False

instance : DecidablePred Fed
  | .frame bytes _ _ =>
      inferInstanceAs (Decidable (Accepted bytes ∧ ∀ hdr, parseHeader bytes = .ok hdr →
        hdr.seq < 2 ^ 64 - 2 ^ 17 ∧ hdr.session ≠ zeroSession ∧ hdr.count ≠ EOS_COUNT))
  | .recoveryIntent _ => isTrue trivial
  | .sealDead _ => isFalse id

theorem Fed.admissible {i : Input} (h : Fed i) : i.Admissible := by
  cases i with
  | frame bytes feed nowNs => exact ⟨h.1, fun hdr hhdr => ⟨(h.2 hdr hhdr).1, (h.2 hdr hhdr).2.1⟩⟩
  | recoveryIntent nowNs => trivial
  | sealDead reason => trivial

section Frame

variable {bytes : List UInt8} {feed : FeedId} {nowNs : ℕ}

/-- The header of a fed frame with what was checked about it. -/
structure FedHeader (bytes : List UInt8) (hdr : Header) : Prop where
  parsed : parseHeader bytes = .ok hdr
  sound : Sound bytes hdr
  inRange : hdr.seq < 2 ^ 64 - 2 ^ 17
  session : hdr.session ≠ zeroSession
  count : hdr.count ≠ EOS_COUNT

theorem Fed.header (h : Fed (.frame bytes feed nowNs)) : ∃ hdr, FedHeader bytes hdr := by
  obtain ⟨hdr, hhdr, hsound⟩ := accepted_iff.mp h.1
  obtain ⟨hseq, hz, hne⟩ := h.2 hdr hhdr
  exact ⟨hdr, hhdr, hsound, hseq, hz, hne⟩

theorem frameBlocks_eq {hdr : Header} (hhdr : parseHeader bytes = .ok hdr) :
    frameBlocks bytes = headerBlocks bytes hdr := by
  simp [frameBlocks, hhdr]

theorem FedHeader.blocks_lt {hdr : Header} (h : FedHeader bytes hdr) :
    ∀ m ∈ frameBlocks bytes, m.1 + 1 < 2 ^ 64 := by
  intro m hm
  have hcount := (parseHeader_bounds h.parsed).2
  have hseq := h.inRange
  rw [frameBlocks_eq h.parsed, headerBlocks_eq (by omega)] at hm
  have hb := mem_number_bounds hm
  have hle := splitBlocks_length_le hdr.count (bytes.drop HEADER_LEN)
  omega

end Frame

/-! ## The oracle's side -/

/-- The oracle fed with the frames of a run. -/
def feedReference (inputs : List Input) : ReferenceArbitrator :=
  inputs.foldl (fun r i => match i with
    | .frame bytes _ _ => r.ingestPacket bytes
    | _ => r) ReferenceArbitrator.new

/-- The oracle holds the logs of the visits, and points to the most recent one. -/
structure Records (r : ReferenceArbitrator) (vs : List Visit) : Prop where
  sessions : r.sessions = ReferenceArbitrator.sessionsOf (vs.map Visit.log)
  current : r.currentSessionIdx = vs.tail?.map List.length

theorem sessionsOf_length (logs : List (SessionId × List (ℕ × List UInt8))) :
    (ReferenceArbitrator.sessionsOf logs).length = logs.length := by
  simp [ReferenceArbitrator.sessionsOf]

theorem sessionsOf_cons (log : SessionId × List (ℕ × List UInt8))
    (logs : List (SessionId × List (ℕ × List UInt8))) :
    ReferenceArbitrator.sessionsOf (log :: logs) =
      ReferenceArbitrator.sessionsOf logs ++ [(RefSession.new log.1).recordAll log.2] := by
  simp [ReferenceArbitrator.sessionsOf]

theorem modify_last {α : Type*} (f : α → α) (xs : List α) (x : α) :
    (xs ++ [x]).modify xs.length f = xs ++ [f x] := by
  induction xs with
  | nil => rfl
  | cons y xs ih => simp [ih]

theorem recordAll_append (session : RefSession) (xs ys : List (ℕ × List UInt8)) :
    session.recordAll (xs ++ ys) = (session.recordAll xs).recordAll ys := List.foldl_append

theorem Records.ingestPacket {r : ReferenceArbitrator} {vs : List Visit} (h : Records r vs)
    {bytes : List UInt8} {feed : FeedId} {nowNs : ℕ} (hfed : Fed (.frame bytes feed nowNs)) :
    Records (r.ingestPacket bytes) (enter vs (.frame bytes feed nowNs)) := by
  obtain ⟨hdr, hhdr, -, hseq, -, hne⟩ := hfed.header
  have hcount := (parseHeader_bounds hhdr).2
  have hrec : ∀ session : RefSession, session.ingestFrame bytes hdr.seq hdr.count =
      session.recordAll (frameBlocks bytes) := by
    intro session
    rw [frameBlocks_eq hhdr]
    exact session.ingestFrame_eq hhdr (by omega) hne
  obtain ⟨hs, hc⟩ := h
  -- a frame that opens a visit
  have hopen : r.manageSession hdr.session =
      (⟨r.sessions ++ [RefSession.new hdr.session], some r.sessions.length⟩, r.sessions.length) →
      Records (r.ingestPacket bytes) (⟨hdr.session, [bytes]⟩ :: vs) := by
    intro hm
    have hlen : r.sessions.length = vs.length := by
      rw [hs, sessionsOf_length, List.length_map]
    constructor
    · simp only [ReferenceArbitrator.ingestPacket, hhdr, hm, modify_last, hrec]
      rw [List.map_cons, sessionsOf_cons, ← hs]
      simp [Visit.log, Visit.blocks]
    · simp only [ReferenceArbitrator.ingestPacket, hhdr, hm, hlen]
      rfl
  cases vs with
  | nil =>
      simp only [enter, hhdr]
      apply hopen
      rw [ReferenceArbitrator.manageSession, hc]
      rfl
  | cons v older =>
      rw [List.map_cons, sessionsOf_cons] at hs
      change r.currentSessionIdx = some older.length at hc
      have hlen : (ReferenceArbitrator.sessionsOf (older.map Visit.log)).length =
          older.length := by
        rw [sessionsOf_length, List.length_map]
      have hget : r.sessions[older.length]?.map RefSession.sessionId = some v.session := by
        rw [hs, ← hlen, List.getElem?_concat_length, Option.map_some,
          RefSession.recordAll_sessionId]
        rfl
      by_cases hsess : v.session = hdr.session
      · have hm : r.manageSession hdr.session = (r, older.length) := by
          simp only [ReferenceArbitrator.manageSession, hc, hget, hsess, if_true]
        simp only [enter, hhdr, if_pos hsess]
        constructor
        · simp only [ReferenceArbitrator.ingestPacket, hhdr, hm, hs, hrec]
          rw [← hlen, modify_last, List.map_cons, sessionsOf_cons, ← recordAll_append]
          simp [Visit.log, Visit.blocks]
        · simp only [ReferenceArbitrator.ingestPacket, hhdr, hm, hc]
          rfl
      · simp only [enter, hhdr, if_neg hsess]
        apply hopen
        simp only [ReferenceArbitrator.manageSession, hc, hget]
        rw [if_neg fun he => hsess (Option.some.inj he)]

theorem feedReference_records {inputs : List Input} (hfed : ∀ i ∈ inputs, Fed i) :
    Records (feedReference inputs) (visits inputs) := by
  induction inputs using List.reverseRecOn with
  | nil => exact ⟨rfl, rfl⟩
  | append_singleton inputs i ih =>
      have h := ih fun j hj => hfed j (by simp [hj])
      have hi := hfed i (by simp)
      rw [visits_snoc]
      cases i with
      | frame bytes feed nowNs =>
          simpa [feedReference, List.foldl_append] using h.ingestPacket hi
      | recoveryIntent nowNs =>
          change Records _ (visits inputs)
          simpa [feedReference, List.foldl_append] using h
      | sealDead reason => exact hi.elim

/-! ## The sequencer's side -/

/-- How a visit opens that carried these blocks and no end of session. -/
def openingOf (seen : List (ℕ × List UInt8)) : Opening :=
  match seen.head? with
  | none => .waiting
  | some m => .anchored m.1

section Step

variable {bytes : List UInt8} {hdr : Header} {feed : FeedId} {nowNs : ℕ} {s : Sequencer}

theorem headerBlocks_nil (hc : hdr.count = HEARTBEAT_COUNT) :
    headerBlocks bytes hdr = [] := by
  rw [headerBlocks, hc]
  rfl

/-- The first block of an accepted data packet carries the header's number. -/
theorem headerBlocks_head (hhdr : parseHeader bytes = .ok hdr) (hsound : Sound bytes hdr)
    (hseq : hdr.seq < 2 ^ 64 - 2 ^ 17)
    (hc : ¬(hdr.count = HEARTBEAT_COUNT ∨ hdr.count = EOS_COUNT)) :
    ∃ d rest, headerBlocks bytes hdr = (hdr.seq, d) :: rest := by
  have hcount := (parseHeader_bounds hhdr).2
  rw [headerBlocks_eq (by omega)]
  unfold Sound at hsound
  rw [if_neg hc] at hsound
  have hlen := splitBlocks_length hsound.2.1
  cases hd : (splitBlocks hdr.count (bytes.drop HEADER_LEN)).1 with
  | nil =>
      rw [hd] at hlen
      exact absurd (Or.inl hlen.symm) hc
  | cons d ds => exact ⟨d, _, rfl⟩

theorem opening_fed {visit : List Input} {seen : List (ℕ × List UInt8)}
    (h : FedHeader bytes hdr) (ho : opening visit = openingOf seen) :
    opening (visit ++ [.frame bytes feed nowNs]) = openingOf (seen ++ frameBlocks bytes) := by
  obtain ⟨hhdr, hsound, hseq, -, hne⟩ := h
  rw [frameBlocks_eq hhdr]
  cases seen with
  | cons m seen =>
      rw [opening_snoc, ho]
      rfl
  | nil =>
      rw [opening_frame hhdr ho, List.nil_append]
      by_cases hc : hdr.count = HEARTBEAT_COUNT
      · rw [if_pos hc, headerBlocks_nil hc]
        rfl
      · obtain ⟨d, rest, hd⟩ := headerBlocks_head hhdr hsound hseq (not_or.mpr ⟨hc, hne⟩)
        rw [if_neg hc, if_neg hne, hd]
        rfl

/-- Where a heartbeat leaves the watermark. -/
theorem heartbeat_w (hs : s.Coherent) (hhdr : parseHeader bytes = .ok hdr)
    (hc : hdr.count = HEARTBEAT_COUNT) : (s.ingest bytes feed nowNs).1.w = s.w := by
  rcases ingest_frame s hhdr feed nowNs with ⟨-, hcore, -⟩ | ⟨-, t, more, hd, -, hrun⟩
  · exact w_of_core hcore
  · have ht : t.w = s.w := by
      cases hd with
      | same _ hcore => exact w_of_core hcore
      | adopt _ hcore => exact (w_of_core hcore :)
      | boundary _ _ hcore => exact (w_of_core hcore :)
    rw [hrun]
    simp only [ingestKind, if_pos hc]
    exact (handleHeartbeat_shows (hd.coherent hs).shows hdr.seq nowNs).1.w.trans ht

/-- The state stays clear of `ended` and `dead` on what is not an end of session. -/
theorem kind_alive (hne : hdr.count ≠ EOS_COUNT) (h₁ : s.state ≠ .ended) (h₂ : s.state ≠ .dead) :
    (s.ingestKind bytes hdr feed nowNs).1.state ≠ .ended ∧
      (s.ingestKind bytes hdr feed nowNs).1.state ≠ .dead := by
  unfold ingestKind
  split
  · rcases s.handleHeartbeat_state hdr.seq nowNs with hs | ⟨-, -, -, hs⟩ <;> rw [hs]
    · exact ⟨h₁, h₂⟩
    · simp
  · unfold ingestData
    rw [if_neg h₁]
    split
    · exact ⟨h₁, h₂⟩
    · rename_i first last _
      have hkeep : ∀ t : Sequencer, t.state ≠ .ended → t.state ≠ .dead →
          (t.applyFrame bytes hdr first last nowNs).1.state ≠ .ended ∧
            (t.applyFrame bytes hdr first last nowNs).1.state ≠ .dead := by
        intro t ht₁ ht₂
        rcases t.applyFrame_state bytes hdr first last nowNs with hs | hs | hs <;> rw [hs]
        · exact ⟨ht₁, ht₂⟩
        · simp
        · simp
      split_ifs
      · exact hkeep _ nofun nofun
      · exact ⟨h₁, h₂⟩
      · exact hkeep s h₁ h₂

/-- A fed call keeps the sequencer alive. -/
theorem step_alive {i : Input} (hi : Fed i) (h₁ : s.state ≠ .ended) (h₂ : s.state ≠ .dead) :
    (s.step i).1.state ≠ .ended ∧ (s.step i).1.state ≠ .dead := by
  cases i with
  | frame bytes feed nowNs =>
      obtain ⟨hdr, hhdr, -, -, -, hne⟩ := hi.header
      simp only [step]
      rcases ingest_frame s hhdr feed nowNs with ⟨hdead, -, -⟩ | ⟨-, t, more, hd, -, hrun⟩
      · exact absurd hdead h₂
      · rw [hrun]
        cases hd with
        | same _ hcore =>
            have hst := state_of_core hcore
            exact kind_alive hne (hst ▸ h₁) (hst ▸ h₂)
        | adopt _ hcore =>
            have hst : t.state = s.state := (state_of_core hcore :)
            exact kind_alive hne (hst ▸ h₁) (hst ▸ h₂)
        | boundary _ _ hcore =>
            have hst : t.state = .init := (state_of_core hcore :)
            exact kind_alive hne (by simp [hst]) (by simp [hst])
  | recoveryIntent nowNs =>
      have hst := state_of_core (s.checkRecoveryIntent_core nowNs)
      exact ⟨fun h => h₁ (hst ▸ h), fun h => h₂ (hst ▸ h)⟩
  | sealDead reason => exact hi.elim

/-- A fed call never takes a dropped block back. -/
theorem step_dropped_le (hs : s.Coherent) {i : Input} (hi : Fed i) :
    s.dropped ≤ (s.step i).1.dropped := by
  cases i with
  | recoveryIntent nowNs => exact (dropped_of_tally (s.checkRecoveryIntent_tally nowNs)).ge
  | sealDead reason => exact hi.elim
  | frame bytes feed nowNs =>
      obtain ⟨hdr, hhdr, hsound, hseq, -, hne⟩ := hi.header
      simp only [step]
      rcases ingest_frame s hhdr feed nowNs with ⟨-, -, -, hdrop⟩ | ⟨-, t, more, hd, hdrop, hrun⟩
      · exact hdrop.ge
      rw [hrun, ← hdrop]
      have ht := hd.coherent hs
      unfold ingestKind
      split
      · exact (dropped_of_tally (t.handleHeartbeat_tally hdr.seq nowNs)).ge
      · rename_i hc
        have hok := hsound.walkError (not_or.mpr ⟨hc, hne⟩)
        simp only
        rcases t.ingestData_cases bytes hdr feed nowNs with ⟨-, hr⟩ | ⟨-, -, hr⟩ |
          ⟨-, first, last, hspan, ⟨hinit, hr⟩ | ⟨-, -, hr⟩ | ⟨-, -, hr⟩⟩ <;> rw [hr]
        · exact le_rfl
        · exact le_rfl
        · have hf : DataFrame bytes hdr first last := ⟨hhdr, hspan, hseq⟩
          obtain ⟨-, -, hle, hlim⟩ := hf.bounds
          have hact : Act (Carries bytes hdr) t [] (t.anchorAt first nowNs) :=
            .anchor first hinit (by omega) rfl
          rw [applyFrame_dropped (hact.coherent ht) hf hok nowNs]
          exact Nat.le_add_right _ _
        · unfold Counters.recordDuplicate Counters.feedMut
          dsimp only [count, dropped]
          split <;> exact le_rfl
        · rw [applyFrame_dropped ht ⟨hhdr, hspan, hseq⟩ hok nowNs]
          exact Nat.le_add_right _ _

end Step

/-! ## The simulation -/

/-- Before the first frame nothing is adopted and nothing delivered. -/
structure Idle (inputs : List Input) : Prop where
  session : (run inputs).1.session = zeroSession
  carried : ∀ session, carried (visitInputs inputs) session = []
  opening : opening (visitInputs inputs) = .waiting
  messages : messages (sinkCalls (run inputs).2) = []

/-- The current visit of the run is the most recent one of its inputs, the older visits have
delivered their streams, and the watermark still is where they stopped if the current one
has carried no block. -/
structure Follows (inputs : List Input) (v : Visit) (older : List Visit) : Prop where
  session : (run inputs).1.session = v.session
  adopted : v.session ≠ zeroSession
  carried : carried (visitInputs inputs) v.session = v.blocks
  opening : opening (visitInputs inputs) = openingOf v.blocks
  older : ∃ out stop, Streams (older.map Visit.blocks) out stop ∧
    messages (sinkCalls (run inputs).2) = out ++ messages (visitCalls inputs) ∧
    (v.blocks = [] → ∀ n, stop = some n → (run inputs).1.w = n)

/-- The visits of the inputs are those of the run. -/
structure Refined (inputs : List Input) : Prop where
  alive : (run inputs).1.state ≠ .ended ∧ (run inputs).1.state ≠ .dead
  idle : visits inputs = [] → Idle inputs
  follows : ∀ v older, visits inputs = v :: older → Follows inputs v older

/-- A run that dropped nothing has delivered the streams of its visits. -/
theorem Refined.streams {inputs : List Input} (h : Refined inputs)
    (hfed : ∀ i ∈ inputs, Fed i) (hdrop : (run inputs).1.dropped = 0) :
    ∃ stop, Streams ((visits inputs).map Visit.blocks)
        (messages (sinkCalls (run inputs).2)) stop ∧
      ∀ n, stop = some n → (run inputs).1.w = n := by
  have hd := run_delivered fun i hi => (hfed i hi).admissible
  cases hv : visits inputs with
  | nil =>
      rw [(h.idle hv).messages]
      exact ⟨none, .nil, nofun⟩
  | cons v older =>
      have hf := h.follows v older hv
      obtain ⟨out, stop, hstreams, hmsgs, hw⟩ := hf.older
      have hopen := hf.opening
      have hcar := hf.carried
      rw [hmsgs, List.map_cons]
      cases hb : v.blocks with
      | nil =>
          rw [hb] at hopen
          rw [(hd.waiting hopen).2.1, List.append_nil]
          exact ⟨stop, .idle hstreams, hw hb⟩
      | cons m seen =>
          rw [hb] at hopen
          obtain ⟨-, -, b, hshows, hex, -, hin, hcomp⟩ := hd.anchored m.1 hopen
          rw [hf.session, hcar, hb] at hin hcomp
          have hstream := hex.isStream hin (hcomp ⟨hdrop, h.alive.1, h.alive.2⟩)
          rw [← hshows.w] at hstream
          exact ⟨_, .data hstreams hstream, fun n hn => Option.some.inj hn⟩

section Snoc

variable {inputs : List Input} {bytes : List UInt8} {hdr : Header} {feed : FeedId} {nowNs : ℕ}

/-- A call without a boundary leaves the streams of the older visits alone. -/
theorem messages_snoc {i : Input} (hany : ((run inputs).1.step i).2.any Output.isBoundary = false)
    {out : List (ℕ × List UInt8)}
    (h : messages (sinkCalls (run inputs).2) = out ++ messages (visitCalls inputs)) :
    messages (sinkCalls (run (inputs ++ [i])).2) =
      out ++ messages (visitCalls (inputs ++ [i])) := by
  rw [visitCalls_snoc hany, run_snoc, Traced.andThen_snd, sinkCalls_append, messages_append, h,
    messages_append, List.append_assoc]

/-- What a frame does to the session of a live coherent state. -/
theorem step_session {s : Sequencer} (hs : s.Coherent) (hhdr : parseHeader bytes = .ok hdr)
    (hseq : hdr.seq < 2 ^ 64 - 2 ^ 17) (hlive : s.state ≠ .dead) :
    (s.step (.frame bytes feed nowNs)).1.session = hdr.session ∧
      ((s.session = zeroSession ∨ s.session = hdr.session) →
        (s.step (.frame bytes feed nowNs)).2.any Output.isBoundary = false) ∧
      (s.session ≠ zeroSession → s.session ≠ hdr.session →
        ∃ o more, (s.step (.frame bytes feed nowNs)).2 = o :: more ∧ o.isBoundary = true ∧
          (∀ x ∈ more, x.isBoundary = false) ∧
          messages (sinkCalls (s.step (.frame bytes feed nowNs)).2) =
            messages (sinkCalls more)) := by
  rw [step_any_boundary]
  simp only [step, sinkCalls_sink]
  rcases ingest_frame s hhdr feed nowNs with ⟨hdead, -⟩ | ⟨-, t, more, hd, -, hrun⟩
  · exact absurd hdead hlive
  have hacts := ingestKind_acts (hd.coherent hs) hhdr hseq feed nowNs
  have hsess := (hacts.sourced (hd.coherent hs)).1
  rw [hrun]
  simp only [hsess]
  cases hd with
  | same hsame ht =>
      refine ⟨(session_of_core ht).trans hsame, fun _ => ?_, fun _ hn => absurd hsame hn⟩
      exact hacts.any_boundary
  | adopt h0 ht =>
      refine ⟨(session_of_core ht :), fun _ => ?_, fun hn _ => absurd h0 hn⟩
      exact hacts.any_boundary
  | boundary h0 hn ht =>
      refine ⟨(session_of_core ht :), fun h => (h.elim h0 hn).elim, fun _ _ => ?_⟩
      refine ⟨_, _, rfl, rfl, ?_, ?_⟩
      · intro x hx
        obtain ⟨c, hc, rfl⟩ := List.mem_map.mp hx
        exact hacts.not_boundary c hc
      · rw [sinkCalls_sink]
        rfl

theorem Refined.recoveryIntent (h : Refined inputs) :
    Refined (inputs ++ [.recoveryIntent nowNs]) := by
  have hcore := (run inputs).1.checkRecoveryIntent_core nowNs
  have hany : ((run inputs).1.step (.recoveryIntent nowNs)).2.any Output.isBoundary = false := rfl
  have hrun : (run (inputs ++ [.recoveryIntent nowNs])).1.core = (run inputs).1.core := by
    rw [run_snoc]
    exact hcore
  have hvis : visits (inputs ++ [.recoveryIntent nowNs]) = visits inputs := visits_snoc _ _
  have hin : visitInputs (inputs ++ [.recoveryIntent nowNs]) =
      visitInputs inputs ++ [.recoveryIntent nowNs] := by
    rw [visitInputs_snoc, hany]
    rfl
  have hopen : opening (visitInputs (inputs ++ [.recoveryIntent nowNs])) =
      opening (visitInputs inputs) := by
    rw [hin, opening_snoc]
    cases opening (visitInputs inputs) <;> rfl
  have hcar : ∀ session, carried (visitInputs (inputs ++ [.recoveryIntent nowNs])) session =
      carried (visitInputs inputs) session := by
    intro session
    rw [hin, carried_snoc]
    exact List.append_nil _
  constructor
  · rw [state_of_core hrun]
    exact h.alive
  · intro hv
    rw [hvis] at hv
    obtain ⟨h₁, h₂, h₃, h₄⟩ := h.idle hv
    refine ⟨(session_of_core hrun).trans h₁, fun session => (hcar session).trans (h₂ session),
      hopen.trans h₃, ?_⟩
    rw [run_snoc, Traced.andThen_snd, sinkCalls_append, messages_append, h₄]
    rfl
  · intro v older hv
    rw [hvis] at hv
    obtain ⟨h₁, h₂, h₃, h₄, out, stop, hstreams, hmsgs, hw⟩ := h.follows v older hv
    refine ⟨(session_of_core hrun).trans h₁, h₂, (hcar _).trans h₃, hopen.trans h₄, out, stop,
      hstreams, messages_snoc hany hmsgs, ?_⟩
    rw [w_of_core hrun]
    exact hw

/-- A frame without blocks leaves the watermark where it was. -/
theorem run_w_of_nil (hs : (run inputs).1.Coherent) (hf : FedHeader bytes hdr)
    (hnil : frameBlocks bytes = []) :
    (run (inputs ++ [.frame bytes feed nowNs])).1.w = (run inputs).1.w := by
  obtain ⟨hhdr, hsound, hseq, -, hne⟩ := hf
  have hc : hdr.count = HEARTBEAT_COUNT := by
    by_contra hc
    obtain ⟨d, rest, hd⟩ := headerBlocks_head hhdr hsound hseq (not_or.mpr ⟨hc, hne⟩)
    rw [frameBlocks_eq hhdr, hd] at hnil
    cases hnil
  rw [run_snoc]
  exact heartbeat_w hs hhdr hc

/-- A frame of the current session, or the first frame, joins the visit. -/
theorem follows_join {frames : List (List UInt8)} {older : List Visit}
    {out : List (ℕ × List UInt8)} {stop : Option ℕ} (hs : (run inputs).1.Coherent)
    (hlive : (run inputs).1.state ≠ .dead) (hf : FedHeader bytes hdr)
    (hsess : (run inputs).1.session = zeroSession ∨ (run inputs).1.session = hdr.session)
    (hcar : carried (visitInputs inputs) hdr.session = frames.flatMap frameBlocks)
    (hopen : opening (visitInputs inputs) = openingOf (frames.flatMap frameBlocks))
    (hstreams : Streams (older.map Visit.blocks) out stop)
    (hmsgs : messages (sinkCalls (run inputs).2) = out ++ messages (visitCalls inputs))
    (hw : frames.flatMap frameBlocks = [] → ∀ n, stop = some n → (run inputs).1.w = n) :
    Follows (inputs ++ [.frame bytes feed nowNs]) ⟨hdr.session, frames ++ [bytes]⟩ older := by
  have hhdr := hf.parsed
  have hstep : ((run inputs).1.step (.frame bytes feed nowNs)).1.session = hdr.session ∧ _ :=
    step_session hs hhdr hf.inRange hlive
  have hany := hstep.2.1 hsess
  have hin : visitInputs (inputs ++ [.frame bytes feed nowNs]) =
      visitInputs inputs ++ [.frame bytes feed nowNs] := by
    rw [visitInputs_snoc, hany]
    rfl
  have hblocks : Visit.blocks ⟨hdr.session, frames ++ [bytes]⟩ =
      frames.flatMap frameBlocks ++ frameBlocks bytes := by
    simp [Visit.blocks]
  constructor
  · rw [run_snoc]
    exact hstep.1
  · exact hf.session
  · rw [hin, carried_snoc, hcar, blocks_frame hhdr, hblocks, frameBlocks_eq hhdr]
  · rw [hin, hblocks]
    exact opening_fed hf hopen
  · refine ⟨out, stop, hstreams, messages_snoc hany hmsgs, fun hnil n hn => ?_⟩
    rw [hblocks, List.append_eq_nil_iff] at hnil
    rw [run_w_of_nil hs hf hnil.2]
    exact hw hnil.1 n hn

/-- A frame of another session starts a visit behind the streams of all earlier ones. -/
theorem follows_cross {older : List Visit} {stop : Option ℕ} (hs : (run inputs).1.Coherent)
    (hlive : (run inputs).1.state ≠ .dead) (hf : FedHeader bytes hdr)
    (h0 : (run inputs).1.session ≠ zeroSession) (hn : (run inputs).1.session ≠ hdr.session)
    (hstreams : Streams (older.map Visit.blocks) (messages (sinkCalls (run inputs).2)) stop)
    (hw : ∀ n, stop = some n → (run inputs).1.w = n) :
    Follows (inputs ++ [.frame bytes feed nowNs]) ⟨hdr.session, [bytes]⟩ older := by
  have hhdr := hf.parsed
  have hstep : ((run inputs).1.step (.frame bytes feed nowNs)).1.session = hdr.session ∧ _ :=
    step_session hs hhdr hf.inRange hlive
  obtain ⟨o, more, hout, ho, hmore, hmsgs⟩ := hstep.2.2 h0 hn
  have hin : visitInputs (inputs ++ [.frame bytes feed nowNs]) = [.frame bytes feed nowNs] := by
    rw [visitInputs_snoc, hout, List.any_cons, ho]
    rfl
  have hblocks : Visit.blocks ⟨hdr.session, [bytes]⟩ = frameBlocks bytes := by
    simp [Visit.blocks]
  constructor
  · rw [run_snoc]
    exact hstep.1
  · exact hf.session
  · rw [hin, hblocks, frameBlocks_eq hhdr, ← blocks_frame hhdr feed nowNs]
    exact List.append_nil _
  · rw [hin, hblocks]
    exact (opening_fed hf rfl : opening ([] ++ _) = openingOf ([] ++ _))
  · refine ⟨_, stop, hstreams, ?_, fun hnil n hn => ?_⟩
    · rw [visitCalls_snoc_cross hout ho hmore, run_snoc, Traced.andThen_snd, sinkCalls_append,
        messages_append, hmsgs]
    · rw [hblocks] at hnil
      rw [run_w_of_nil hs hf hnil]
      exact hw n hn

theorem Refined.frame (h : Refined inputs) (hfed : ∀ i ∈ inputs, Fed i)
    (hdrop : (run inputs).1.dropped = 0) (hi : Fed (.frame bytes feed nowNs)) : Refined (inputs ++ [.frame bytes feed nowNs]) := by
  obtain ⟨hdr, hf⟩ := hi.header
  have hhdr := hf.parsed
  have hd := run_delivered fun i hi => (hfed i hi).admissible
  obtain ⟨hended, hlive⟩ := h.alive
  have halive := step_alive hi hended hlive
  cases hv : visits inputs with
  | nil =>
      obtain ⟨h₁, h₂, h₃, h₄⟩ := h.idle hv
      have hvis : visits (inputs ++ [.frame bytes feed nowNs]) = [⟨hdr.session, [bytes]⟩] := by
        rw [visits_snoc, hv]
        simp [enter, hhdr]
      have hmsgs : messages (sinkCalls (run inputs).2) = [] ++ messages (visitCalls inputs) := by
        rw [h₄, (hd.waiting h₃).2.1]
        rfl
      have hjoin : Follows (inputs ++ [.frame bytes feed nowNs]) ⟨hdr.session, [] ++ [bytes]⟩ [] :=
        follows_join hd.coherent hlive hf (Or.inl h₁) (h₂ _) h₃ .nil hmsgs nofun
      refine ⟨by rw [run_snoc]; exact halive, fun hn => ?_, fun v older hn => ?_⟩
      · rw [hvis] at hn
        cases hn
      · rw [hvis] at hn
        cases hn
        exact hjoin
  | cons v older =>
      have hv' := h.follows v older hv
      obtain ⟨stop, hstreams, hw⟩ := h.streams hfed hdrop
      by_cases hsess : v.session = hdr.session
      · have hvis : visits (inputs ++ [.frame bytes feed nowNs]) =
            ⟨hdr.session, v.frames ++ [bytes]⟩ :: older := by
          rw [visits_snoc, hv]
          simp [enter, hhdr, hsess]
        obtain ⟨h₁, -, h₃, h₄, out, stop, hstreams, hmsgs, hw⟩ := hv'
        rw [hsess] at h₁ h₃
        have hjoin : Follows (inputs ++ [.frame bytes feed nowNs])
            ⟨hdr.session, v.frames ++ [bytes]⟩ older :=
          follows_join hd.coherent hlive hf (Or.inr h₁) h₃ h₄ hstreams hmsgs hw
        refine ⟨by rw [run_snoc]; exact halive, fun hn => ?_, fun v' older' hn => ?_⟩
        · rw [hvis] at hn
          cases hn
        · rw [hvis] at hn
          cases hn
          exact hjoin
      · have hvis : visits (inputs ++ [.frame bytes feed nowNs]) =
            ⟨hdr.session, [bytes]⟩ :: v :: older := by
          rw [visits_snoc, hv]
          simp [enter, hhdr, hsess]
        have hcross : Follows (inputs ++ [.frame bytes feed nowNs]) ⟨hdr.session, [bytes]⟩
            (v :: older) :=
          follows_cross hd.coherent hlive hf (hv'.session ▸ hv'.adopted)
            (hv'.session ▸ hsess) (hv ▸ hstreams) hw
        refine ⟨by rw [run_snoc]; exact halive, fun hn => ?_, fun v' older' hn => ?_⟩
        · rw [hvis] at hn
          cases hn
        · rw [hvis] at hn
          cases hn
          exact hcross

end Snoc

/-- A fed run that dropped nothing follows the visits of its inputs. -/
theorem run_refined {inputs : List Input} (hfed : ∀ i ∈ inputs, Fed i)
    (hdrop : (run inputs).1.dropped = 0) : Refined inputs := by
  induction inputs using List.reverseRecOn with
  | nil =>
      refine ⟨⟨nofun, nofun⟩, fun _ => ⟨rfl, fun _ => rfl, rfl, rfl⟩, fun v older hv => ?_⟩
      cases hv
  | append_singleton inputs i ih =>
      have hpre : ∀ j ∈ inputs, Fed j := fun j hj => hfed j (by simp [hj])
      have hi := hfed i (by simp)
      have hcoh := (run_delivered fun j hj => (hpre j hj).admissible).coherent
      have hle := step_dropped_le hcoh hi
      rw [run_snoc, Traced.andThen_fst] at hdrop
      have hdrop' : (run inputs).1.dropped = 0 := by omega
      have h := ih hpre hdrop'
      cases i with
      | frame bytes feed nowNs => exact h.frame hpre hdrop' hi
      | recoveryIntent nowNs => exact h.recoveryIntent
      | sealDead reason => exact hi.elim

/-! ## The refinement -/

/-- A data frame, told by its count. -/
def isData (bytes : List UInt8) : Bool :=
  match parseHeader bytes with
  | .ok hdr => hdr.count != HEARTBEAT_COUNT && hdr.count != EOS_COUNT
  | .error _ => false

/-- Two arrival orders of one visit: the same frames with the same data frame first. -/
structure SameVisit (v v' : Visit) : Prop where
  session : v.session = v'.session
  frames : v.frames.Perm v'.frames
  first : v.frames.find? isData = v'.frames.find? isData

theorem enter_fed {vs : List Visit} {i : Input} (hi : Fed i)
    (h : ∀ v ∈ vs, ∀ f ∈ v.frames, ∃ hdr, FedHeader f hdr) :
    ∀ v ∈ enter vs i, ∀ f ∈ v.frames, ∃ hdr, FedHeader f hdr := by
  cases i with
  | recoveryIntent nowNs => exact h
  | sealDead reason => exact h
  | frame bytes feed nowNs =>
      obtain ⟨hdr, hf⟩ := hi.header
      have hnew : ∀ f ∈ [bytes], ∃ hdr, FedHeader f hdr := by
        intro f hmem
        rw [List.mem_singleton.mp hmem]
        exact ⟨hdr, hf⟩
      intro v hv
      cases vs with
      | nil =>
          simp only [enter, hf.parsed] at hv
          rw [List.mem_singleton.mp hv]
          exact hnew
      | cons u older =>
          simp only [enter, hf.parsed] at hv
          split at hv
          · rcases List.mem_cons.mp hv with rfl | hv
            · intro f hmem
              rcases List.mem_append.mp hmem with hold | hmem
              · exact h u List.mem_cons_self f hold
              · exact hnew f hmem
            · exact h v (List.mem_cons_of_mem _ hv)
          · rcases List.mem_cons.mp hv with rfl | hv
            · exact hnew
            · exact h v hv

theorem visits_fed {inputs : List Input} (hfed : ∀ i ∈ inputs, Fed i) :
    ∀ v ∈ visits inputs, ∀ f ∈ v.frames, ∃ hdr, FedHeader f hdr := by
  induction inputs using List.reverseRecOn with
  | nil => exact nofun
  | append_singleton inputs i ih =>
      rw [visits_snoc]
      exact enter_fed (hfed i (by simp)) (ih fun j hj => hfed j (by simp [hj]))

theorem blocks_lt {v : Visit} (h : ∀ f ∈ v.frames, ∃ hdr, FedHeader f hdr) :
    ∀ m ∈ v.blocks, m.1 + 1 < 2 ^ 64 := by
  intro m hm
  obtain ⟨f, hf, hm⟩ := List.mem_flatMap.mp hm
  obtain ⟨hdr, hhdr⟩ := h f hf
  exact hhdr.blocks_lt m hm

/-- The blocks of fed frames start with those of the first data frame. -/
theorem head_blocks {frames : List (List UInt8)} (h : ∀ f ∈ frames, ∃ hdr, FedHeader f hdr) :
    (frames.flatMap frameBlocks).head? =
      (frames.find? isData).bind fun f => (frameBlocks f).head? := by
  induction frames with
  | nil => rfl
  | cons f frames ih =>
      obtain ⟨hdr, hhdr, hsound, hseq, -, hne⟩ := h f List.mem_cons_self
      have ih := ih fun g hg => h g (List.mem_cons_of_mem _ hg)
      rw [List.flatMap_cons]
      by_cases hc : hdr.count = HEARTBEAT_COUNT
      · have hdata : isData f = false := by simp [isData, hhdr, hc]
        rw [List.find?_cons_of_neg (by simp [hdata]), frameBlocks_eq hhdr, headerBlocks_nil hc]
        exact ih
      · have hdata : isData f = true := by simp [isData, hhdr, hc, hne]
        obtain ⟨d, rest, hd⟩ := headerBlocks_head hhdr hsound hseq (not_or.mpr ⟨hc, hne⟩)
        rw [List.find?_cons_of_pos hdata, Option.bind_some, frameBlocks_eq hhdr, hd]
        rfl

theorem SameVisit.sameSeen {v v' : Visit} (h : SameVisit v v')
    (hv : ∀ f ∈ v.frames, ∃ hdr, FedHeader f hdr)
    (hv' : ∀ f ∈ v'.frames, ∃ hdr, FedHeader f hdr) : SameSeen v.blocks v'.blocks where
  anchor := by
    rw [Visit.blocks, Visit.blocks, head_blocks hv, head_blocks hv', h.first]
  mem m := by
    rw [Visit.blocks, Visit.blocks, List.mem_flatMap, List.mem_flatMap]
    constructor
    · rintro ⟨f, hf, hm⟩
      exact ⟨f, h.frames.mem_iff.mp hf, hm⟩
    · rintro ⟨f, hf, hm⟩
      exact ⟨f, h.frames.mem_iff.mpr hf, hm⟩

theorem sameSeen_refl (seen : List (ℕ × List UInt8)) : SameSeen seen seen := ⟨rfl, fun _ => Iff.rfl⟩

theorem forall₂_sameSeen {vs vs' : List Visit} (h : List.Forall₂ SameVisit vs vs')
    (hv : ∀ v ∈ vs, ∀ f ∈ v.frames, ∃ hdr, FedHeader f hdr)
    (hv' : ∀ v ∈ vs', ∀ f ∈ v.frames, ∃ hdr, FedHeader f hdr) :
    List.Forall₂ SameSeen (vs.map Visit.blocks) (vs'.map Visit.blocks) := by
  induction h with
  | nil => exact .nil
  | cons hhead _ ih =>
      exact .cons
        (hhead.sameSeen (hv _ List.mem_cons_self) (hv' _ List.mem_cons_self))
        (ih (fun v h => hv v (List.mem_cons_of_mem _ h))
          fun v h => hv' v (List.mem_cons_of_mem _ h))

/-- The first missing number of the last session that recorded data: the final watermark of
the evaluation without the sessions that have no anchor. -/
def lastDataWatermark (r : ReferenceArbitrator) : ℕ :=
  ({ r with sessions := r.sessions.filter fun session => session.anchor.isSome } :
    ReferenceArbitrator).evaluateAllSessions.finalWm

/-- Leaving out the sessions without an anchor leaves out the logs without a block. -/
theorem sessionsOf_filter (logs : List (SessionId × List (ℕ × List UInt8))) :
    (ReferenceArbitrator.sessionsOf logs).filter (fun session => session.anchor.isSome) =
      ReferenceArbitrator.sessionsOf (logs.filter fun log => !log.2.isEmpty) := by
  induction logs with
  | nil => rfl
  | cons log logs ih =>
      obtain ⟨id, seen⟩ := log
      have hrec := (RefSession.new_recorded id).recordAll seen
      rw [List.nil_append] at hrec
      rw [sessionsOf_cons, List.filter_append, ih, List.filter_cons, List.filter_cons,
        List.filter_nil, hrec.anchor]
      cases seen with
      | nil => simp
      | cons m seen => simp [sessionsOf_cons]

theorem evaluate_eq {r : ReferenceArbitrator} {vs : List Visit} (h : Records r vs) :
    r.evaluateAllSessions = (ReferenceArbitrator.sessionsOf (vs.map Visit.log)).foldl
      ReferenceArbitrator.evaluateSession ⟨1, 1, 0xcbf29ce484222325, []⟩ := by
  rw [ReferenceArbitrator.evaluateAllSessions, h.sessions]

/-- A watermark where the streams of the visits stop is the oracle's. -/
theorem Records.watermark {r : ReferenceArbitrator} {vs : List Visit} (h : Records r vs)
    (hlim : ∀ v ∈ vs, ∀ m ∈ v.blocks, m.1 + 1 < 2 ^ 64)
    (hcons : ∀ v ∈ vs, Consistent v.blocks) {out : List (ℕ × List UInt8)} {stop : Option ℕ}
    (hstreams : Streams (vs.map Visit.blocks) out stop) (hdata : ∃ v ∈ vs, v.blocks ≠ []) :
    stop = some (lastDataWatermark r) := by
  have hmap : (vs.map Visit.blocks).filter (fun seen => !seen.isEmpty) =
      (vs.filter fun v => !v.blocks.isEmpty).map Visit.blocks := List.filter_map
  have hlogs : (vs.map Visit.log).filter (fun log => !log.2.isEmpty) =
      (vs.filter fun v => !v.blocks.isEmpty).map Visit.log := List.filter_map
  have hsessions : lastDataWatermark r = ((ReferenceArbitrator.sessionsOf
      ((vs.filter fun v => !v.blocks.isEmpty).map Visit.log)).foldl
        ReferenceArbitrator.evaluateSession ⟨1, 1, 0xcbf29ce484222325, []⟩).finalWm := by
    rw [lastDataWatermark, ReferenceArbitrator.evaluateAllSessions, h.sessions,
      sessionsOf_filter, hlogs]
  have hstreams' := hstreams.filter
  rw [hmap] at hstreams'
  rw [hsessions]
  generalize hfs : vs.filter (fun v => !v.blocks.isEmpty) = fs at hstreams'
  have hmem : ∀ v ∈ fs, v ∈ vs ∧ v.blocks ≠ [] := by
    intro v hv
    rw [← hfs, List.mem_filter] at hv
    exact ⟨hv.1, by simpa using hv.2⟩
  have hlim' : ∀ log ∈ fs.map Visit.log, ∀ m ∈ log.2, m.1 + 1 < 2 ^ 64 := by
    intro log hlog
    obtain ⟨v, hv, rfl⟩ := List.mem_map.mp hlog
    exact hlim v (hmem v hv).1
  obtain ⟨stop', href, hlast⟩ := ReferenceArbitrator.evaluate_streams hlim'
  rw [List.map_map] at href
  have hsame : List.Forall₂ SameSeen (fs.map Visit.blocks) (fs.map (Prod.snd ∘ Visit.log)) :=
    List.forall₂_same.mpr fun seen _ => sameSeen_refl seen
  obtain ⟨-, rfl⟩ := hstreams'.unique (by
    intro seen hseen
    obtain ⟨v, hv, rfl⟩ := List.mem_map.mp hseen
    exact hcons v (hmem v hv).1) href hsame
  cases fs with
  | nil =>
      obtain ⟨v, hv, hne⟩ := hdata
      have : v ∈ vs.filter fun v => !v.blocks.isEmpty := by
        rw [List.mem_filter]
        exact ⟨hv, by simpa using hne⟩
      rw [hfs] at this
      cases this
  | cons v fs => exact hlast v.log (fs.map Visit.log) rfl (hmem v List.mem_cons_self).2

/-- Refinement to the reference arbitrator: a fed run with consistent visits that dropped no
block delivers what the oracle emits on the same frames, its watermark is the oracle's first
missing number of the last visit with data, and any other arrival order of the same visits
with the same first data frames that drops no block either delivers the same. -/
theorem refines_reference (inputs : List Input) (hfed : ∀ i ∈ inputs, Fed i)
    (hcons : ∀ v ∈ visits inputs, Consistent v.blocks)
    (hdrop : (run inputs).1.counters.beyondWindowDropped = 0) :
    messages (sinkCalls (run inputs).2) = (feedReference inputs).evaluateAllSessions.emitted ∧
    ((∃ v ∈ visits inputs, v.blocks ≠ []) →
      (run inputs).1.w = lastDataWatermark (feedReference inputs)) ∧
    ∀ inputs' : List Input, (∀ i ∈ inputs', Fed i) →
      (run inputs').1.counters.beyondWindowDropped = 0 →
      List.Forall₂ SameVisit (visits inputs) (visits inputs') →
      messages (sinkCalls (run inputs').2) = messages (sinkCalls (run inputs).2) := by
  have hv := visits_fed hfed
  have hlim : ∀ v ∈ visits inputs, ∀ m ∈ v.blocks, m.1 + 1 < 2 ^ 64 :=
    fun v h => blocks_lt (hv v h)
  have hcons' : ∀ seen ∈ (visits inputs).map Visit.blocks, Consistent seen := by
    intro seen hseen
    obtain ⟨v, hv, rfl⟩ := List.mem_map.mp hseen
    exact hcons v hv
  obtain ⟨stop, hstreams, hw⟩ := (run_refined hfed hdrop).streams hfed hdrop
  have hrec := feedReference_records hfed
  refine ⟨?_, fun hdata => ?_, fun inputs' hfed' hdrop' hsame => ?_⟩
  · have hlogs : ∀ log ∈ (visits inputs).map Visit.log, ∀ m ∈ log.2, m.1 + 1 < 2 ^ 64 := by
      intro log hlog
      obtain ⟨v, hv, rfl⟩ := List.mem_map.mp hlog
      exact hlim v hv
    obtain ⟨stop', href, -⟩ := ReferenceArbitrator.evaluate_streams hlogs
    rw [List.map_map] at href
    rw [evaluate_eq hrec]
    exact (hstreams.unique hcons' href
      (List.forall₂_same.mpr fun seen _ => sameSeen_refl seen)).1
  · exact hw _ (hrec.watermark hlim hcons hstreams hdata)
  · obtain ⟨stop', hstreams', -⟩ := (run_refined hfed' hdrop').streams hfed' hdrop'
    exact (hstreams.unique hcons' hstreams'
      (forall₂_sameSeen hsame hv (visits_fed hfed'))).1.symm

/-- Two visits: one with a gap, an overlap and a heartbeat, one with a duplicate. -/
def reorderedRun : List Input :=
  [.frame (makeFrame (SessionId.repeated 65) 7 2) 0 10,
    .frame (makeFrame (SessionId.repeated 65) 11 1) 0 20,
    .frame (makeHbFrame (SessionId.repeated 65) 12) 1 30,
    .frame (makeFrame (SessionId.repeated 65) 8 3) 1 40,
    .frame (makeFrame (SessionId.repeated 66) 1 2) 0 50,
    .frame (makeFrame (SessionId.repeated 66) 1 2) 1 60]

theorem refines_reference_reordered :
    messages (sinkCalls (run reorderedRun).2) =
      (feedReference reorderedRun).evaluateAllSessions.emitted :=
  (refines_reference reorderedRun (by decide +kernel) (by decide +kernel) (by decide +kernel)).1

end HftProj.Testkit
