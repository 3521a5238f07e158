import HftProj.Arbitrator.Window

/-!
# The sequencer

State, gap lifecycle, session lifecycle, recovery intents and the ingest
algorithm. The fields that the window operations borrow are grouped in `window`;
everything else follows the source struct. Each function takes the sequencer and
returns it with the sink calls made, in order.
-/

namespace HftProj.Arbitrator

open HftProj.Lib HftProj.Protocol HftProj.Protocol.Moldudp64 HftProj.Protocol.Packet

/-- The all-zero id, which also marks that no session has been adopted. -/
def zeroSession : SessionId := ⟨List.replicate 10 0, rfl⟩

structure Sequencer where
  w : ℕ
  gen : ℕ
  session : SessionId
  sessionLo : ℕ
  sessionHi : ℕ
  sessionLive : Bool
  state : State
  gapActive : Bool
  evidenceHwm : ℕ
  progressVt : ℕ
  hbSeq : ℕ
  hbVt : ℕ
  pendingTo : Option ℕ
  lastIntentVt : ℕ
  counters : Counters
  mutation : SequencerMutation
  window : Window

/-- A step of the sequencer with the calls it makes to the sink. -/
abbrev Emitting := Traced Sequencer SinkCall

namespace Sequencer

def withMutation (mutation : SequencerMutation) : Sequencer where
  w := 0
  gen := 0
  session := zeroSession
  sessionLo := 0
  sessionHi := 0
  sessionLive := false
  state := .init
  gapActive := false
  evidenceHwm := 0
  progressVt := 0
  hbSeq := 0
  hbVt := 0
  pendingTo := none
  lastIntentVt := 0
  counters := {}
  mutation := mutation
  window := Window.new

def new : Sequencer := withMutation .none

/-- Apply an update to the telemetry counters. -/
def count (s : Sequencer) (f : Counters → Counters) : Sequencer :=
  { s with counters := f s.counters }

/-! ## Gap lifecycle -/

/-- A gap opens if none is open and `x` is ahead of the watermark; an open gap's
evidence is extended. -/
def gapEvidence (s : Sequencer) (x : ℕ) : Emitting :=
  if s.gapActive = false ∧ x > s.w then
    let gen := wrappingAdd s.gen 1
    ({ s with
        gapActive := true
        gen := gen
        counters := { s.counters with gapOpens := s.counters.gapOpens + 1 }
        state := .gap
        evidenceHwm := x },
      [.onEvent (.gapOpened s.w (some x) gen)])
  else if s.gapActive then ({ s with evidenceHwm := max s.evidenceHwm x }, [])
  else (s, [])

/-- An open gap closes when the watermark reaches its evidence. -/
def checkGapClose (s : Sequencer) (gen : ℕ) : Emitting :=
  if s.gapActive ∧ s.w ≥ s.evidenceHwm then
    ({ s with
        gapActive := false
        state := .contig
        counters := { s.counters with reanchors := s.counters.reanchors + 1 }
        evidenceHwm := 0 },
      [.onEvent (.reAnchored gen s.w)])
  else (s, [])

/-! ## Session lifecycle -/

/-- Adopt the first session, or cross a session boundary. -/
def sessionDispatch (s : Sequencer) (newSession : SessionId) : Emitting :=
  if s.session = zeroSession then
    ({ s with
        session := newSession
        counters := { s.counters with sessions := s.counters.sessions + 1 } }, [])
  else if s.session ≠ newSession then
    let prev := s.session
    let s := { s with
      session := newSession
      counters := { s.counters with sessions := s.counters.sessions + 1 } }
    let s := if s.window.stagedCount ≠ 0 then
        { s with
          window := { s.window with lens := fun _ => 0, stagedCount := 0 }
          counters := { s.counters with windowFlushed := s.counters.windowFlushed + 1 } }
      else s
    let gen := wrappingAdd s.gen 1
    ({ s with
        window := { s.window with maxStaged := 0 }
        gapActive := false
        evidenceHwm := 0
        hbSeq := 0
        hbVt := 0
        pendingTo := none
        gen := gen
        state := .init },
      [.onEvent (.sessionBoundary prev newSession gen)])
  else (s, [])

/-- Refresh the session compare words; an all-zero session never goes live. -/
def refreshSessionTmpl (s : Sequencer) : Sequencer :=
  { s with
    sessionLo := fromLeBytes (s.session.1.take 8)
    sessionHi := fromLeBytes ((s.session.1.drop 2).take 8)
    sessionLive := decide (s.session ≠ zeroSession) }

/-- Session dispatch followed by the template refresh. -/
def dispatchSession (s : Sequencer) (newSession : SessionId) : Emitting :=
  let prevSession := s.session
  let r := s.sessionDispatch newSession
  (if r.1.sessionLive = false ∨ r.1.session ≠ prevSession then r.1.refreshSessionTmpl else r.1,
    r.2)

def handleHeartbeat (s : Sequencer) (seq nowNs : ℕ) : Emitting :=
  let s := s.count fun c => { c with heartbeats := c.heartbeats + 1 }
  if s.state = .dead then (s, [])
  else if s.state = .init then ({ s with hbSeq := seq, hbVt := nowNs }, [])
  else if s.state = .ended then (s, [])
  else if seq > s.w then gapEvidence { s with hbSeq := seq, hbVt := nowNs } seq
  else (s, [])

def handleEos (s : Sequencer) (hdr : Header) : Emitting :=
  let ended (s : Sequencer) : Emitting :=
    ({ s with state := .ended }, [.onEvent (.endOfSession s.session s.w hdr.seq)])
  if s.state = .dead then (s, [])
  else if s.state = .ended then (s.count fun c => { c with eosDup := c.eosDup + 1 }, [])
  else if s.state = .init then ended (s.count fun c => { c with eosSeen := c.eosSeen + 1 })
  else if s.state = .eosPersist then
    let s := s.count fun c => { c with eosDup := c.eosDup + 1 }
    if s.w ≥ hdr.seq then ended s else (s, [])
  else
    let s := s.count fun c => { c with eosSeen := c.eosSeen + 1 }
    if s.w < hdr.seq then ({ s with state := .eosPersist }, []) else ended s

/-- Permanently seal the sequencer. -/
def sealDead (s : Sequencer) (reason : DeadReason) : Emitting :=
  if s.state ≠ .dead then
    ({ s with state := .dead }, [.onEvent (.sessionDead reason s.w)])
  else (s, [])

/-! ## Recovery intents -/

def TIME_TRIGGER_NS : ℕ := 250000
def HB_TRIGGER_NS : ℕ := 250000
def RESUGGEST_WINDOW_NS : ℕ := 250000
def HWM_STAGED_THRESHOLD : ℕ := 512
def MAX_WIRE_REQUEST : ℕ := 65535

/-- Record and return an intent for `[w, toExcl)`. -/
def issueIntent (s : Sequencer) (nowNs toExcl : ℕ) : Sequencer × Option RecoveryIntent :=
  ({ s with
      lastIntentVt := nowNs
      counters := { s.counters with intentsIssued := s.counters.intentsIssued + 1 } },
    some ⟨s.w, toExcl⟩)

/-- The gap trigger that fires now, as the exclusive end to request. -/
def intentTarget (s : Sequencer) (nowNs : ℕ) : Option ℕ :=
  if (s.window.maxStaged > s.w ∧ s.window.maxStaged - s.w ≥ HWM_STAGED_THRESHOLD) ∨
      (s.window.stagedCount > 0 ∧ nowNs - s.progressVt ≥ TIME_TRIGGER_NS) then
    some s.window.maxStaged
  else if s.hbSeq > s.w ∧ nowNs - s.hbVt ≥ HB_TRIGGER_NS then some s.hbSeq
  else none

def checkRecoveryIntent (s : Sequencer) (nowNs : ℕ) : Sequencer × Option RecoveryIntent :=
  match s.intentTarget nowNs with
  | none =>
      match s.pendingTo with
      | none => (s, none)
      | some p =>
          if nowNs - s.lastIntentVt ≥ RESUGGEST_WINDOW_NS then s.issueIntent nowNs p
          else (s, none)
  | some t =>
      let t := min t (wrappingAdd s.w MAX_WIRE_REQUEST)
      match s.pendingTo with
      | none => ({ s with pendingTo := some t }).issueIntent nowNs t
      | some prevP =>
          if t > prevP then ({ s with pendingTo := some t }).issueIntent nowNs t
          else if nowNs - s.lastIntentVt ≥ RESUGGEST_WINDOW_NS then s.issueIntent nowNs prevP
          else (s, none)

/-! ## Ingest -/

/-- The emitting callback: one sink call for each block, and their number. -/
def emitBlock (proof : LiveFeedProof) (acc : List SinkCall × ℕ) (seq : ℕ) (data : List UInt8) :
    List SinkCall × ℕ :=
  (acc.1 ++ [.onMsg proof seq data], acc.2 + 1)

/-- The staging callback: below the clamp a block is staged or dropped by the window. -/
def stageBlock (w maxClamp : ℕ) (acc : Window × Counters) (seq : ℕ) (data : List UInt8) :
    Window × Counters :=
  if seq < maxClamp then
    let r := acc.1.stageMsg w seq data
    if r.2 then (r.1, { acc.2 with stagedMsgs := acc.2.stagedMsgs + 1 })
    else (r.1, { acc.2 with beyondWindowDropped := acc.2.beyondWindowDropped + 1 })
  else (acc.1, { acc.2 with beyondWindowDropped := acc.2.beyondWindowDropped + 1 })

/-- Drain the window from the watermark and account for what was emitted. -/
def drainWindow (s : Sequencer) (gen nowNs : ℕ) : Emitting :=
  let r := s.window.drain s.w gen
  let drained := r.2.2.length
  ({ s with
      window := r.1
      w := r.2.1
      counters := { s.counters with msgsEmitted := s.counters.msgsEmitted + drained }
      progressVt := if drained > 0 then nowNs else s.progressVt },
    r.2.2)

/-- Retire the outstanding intent once the watermark has passed it. -/
def retirePending (s : Sequencer) : Sequencer :=
  match s.pendingTo with
  | some p => if s.w ≥ p then { s with pendingTo := none } else s
  | none => s

/-- What follows a completed emission walk: the watermark moves past the frame, the
slots left behind are cleared, and the window is drained behind it. -/
def advance (s : Sequencer) (last nowNs : ℕ) : Emitting :=
  let oldW := s.w
  let gen := s.gen
  let s := { s with w := wrappingAdd last 1 }
  let s := if s.window.stagedCount ≠ 0 ∧ s.mutation ≠ .disableClearOnAdvance then
      { s with window := s.window.clearSlots oldW s.w }
    else s
  let s := { s with progressVt := nowNs }
  let drained : Emitting := if s.window.stagedCount ≠ 0 then s.drainWindow gen nowNs else (s, [])
  drained.andThen fun s => if s.gapActive then s.checkGapClose gen else (s, [])

/-- A staged span raises the high mark; one cut off by the window is gap evidence. -/
def recordReach (s : Sequencer) (last : ℕ) : Sequencer :=
  { s with
    evidenceHwm := if last ≥ wrappingAdd s.w WINDOW_SLOTS then
        max s.evidenceHwm (wrappingAdd last 1)
      else s.evidenceHwm
    window := { s.window with maxStaged := max s.window.maxStaged last } }

/-- What follows a completed staging walk: the window is drained from the watermark and
the gap is closed if that reached its evidence. -/
def settle (s : Sequencer) (nowNs : ℕ) : Emitting :=
  (s.drainWindow s.gen nowNs).andThen fun s => s.checkGapClose s.gen

/-- S5, `first ≤ w`: emit the blocks past the duplicate prefix, then advance. -/
def applyContiguous (s : Sequencer) (frame : List UInt8) (hdr : Header)
    (first last nowNs : ℕ) : Emitting :=
  let proof : LiveFeedProof := ⟨s.gen⟩
  let skip := min (wrappingSub s.w first) hdr.count
  let s := if skip ≠ 0 then s.count fun c => { c with dupMsgs := c.dupMsgs + skip } else s
  let walk := ingestWalk frame first hdr.count skip (validated (emitBlock proof)) ([], 0)
  let s := s.count fun c => { c with msgsEmitted := c.msgsEmitted + walk.1.2 }
  match walk.2 with
  | .error e => (s.count fun c => c.recordPacketError e, walk.1.1)
  | .ok () =>
      let r := s.advance last nowNs
      (r.1.retirePending, walk.1.1 ++ r.2)

/-- S5, `first > w`: record gap evidence, stage the blocks below the clamp, then drain. -/
def applyGap (s : Sequencer) (frame : List UInt8) (hdr : Header)
    (first last nowNs : ℕ) : Emitting :=
  (s.gapEvidence first).andThen fun s =>
    let maxClamp := if s.mutation = .offByOneClamp then wrappingAdd s.w (WINDOW_SLOTS / 2)
      else wrappingAdd s.w WINDOW_SLOTS
    let walk := ingestWalk frame first hdr.count 0 (validated (stageBlock s.w maxClamp))
      (s.window, s.counters)
    let s := { s with window := walk.1.1, counters := walk.1.2 }
    match walk.2 with
    | .error e => (s.count fun c => c.recordPacketError e, [])
    | .ok () =>
        let r := (s.recordReach last).settle nowNs
        (r.1.retirePending, r.2)

/-- S5 for a frame whose span starts at or ahead of the watermark. -/
def applyFrame (s : Sequencer) (frame : List UInt8) (hdr : Header)
    (first last nowNs : ℕ) : Emitting :=
  if first ≤ s.w then s.applyContiguous frame hdr first last nowNs
  else s.applyGap frame hdr first last nowNs

/-- S3, `Init`: the watermark starts at the first number of the first data packet. -/
def anchorAt (s : Sequencer) (first nowNs : ℕ) : Sequencer :=
  { s with w := first, progressVt := nowNs, state := .contig }

/-- S3: anchor on the first data packet of a session, or drop a pure duplicate. -/
def ingestData (s : Sequencer) (frame : List UInt8) (hdr : Header) (feed : FeedId)
    (nowNs : ℕ) : Emitting :=
  if s.state = .ended then
    (s.count Counters.recordDataAfterEos, [])
  else
    match hdr.span with
    | none => (s.count Counters.recordSeqOverflow, [])
    | some (first, last) =>
        if s.state = .init then
          (s.anchorAt first nowNs).applyFrame frame hdr first last nowNs
        else if last < s.w then
          (s.count fun c => c.recordDuplicate feed hdr.count, [])
        else s.applyFrame frame hdr first last nowNs

/-- S2: heartbeats and end-of-session packets are told by their count. -/
def ingestKind (s : Sequencer) (frame : List UInt8) (hdr : Header) (feed : FeedId)
    (nowNs : ℕ) : Emitting :=
  if hdr.count = HEARTBEAT_COUNT then s.handleHeartbeat hdr.seq nowNs
  else if hdr.count = EOS_COUNT then
    let s := if s.mutation = .dropStagedAtEos then
        { s with window := { s.window with lens := fun _ => 0, stagedCount := 0 } }
      else s
    s.handleEos hdr
  else s.ingestData frame hdr feed nowNs

/-- S0: count the packet and its bytes. -/
def countPacket (s : Sequencer) (frame : List UInt8) (feed : FeedId) : Sequencer :=
  s.count fun c =>
    c.feedMut feed fun fc =>
      { fc with packets := fc.packets + 1, bytes := fc.bytes + frame.length }

/-- The normative ingest algorithm. -/
def ingest (s : Sequencer) (frame : List UInt8) (feed : FeedId) (nowNs : ℕ) : Emitting :=
  let s := s.countPacket frame feed
  if frame.length < HEADER_LEN then
    (s.count Counters.recordTruncated, [])
  else
    match parseHeader frame with
    | .error e => (s.count fun c => c.recordFrameError e, [])
    | .ok hdr =>
        if s.state = .dead then
          (s.count fun c => { c with ignoredAfterDead := c.ignoredAfterDead + 1 }, [])
        else (s.dispatchSession hdr.session).andThen fun s => s.ingestKind frame hdr feed nowNs

end Sequencer

/-! ## Runs -/

/-- One call made to the sequencer. -/
inductive Input where
  | frame (bytes : List UInt8) (feed : FeedId) (nowNs : ℕ)
  | recoveryIntent (nowNs : ℕ)
  | sealDead (reason : DeadReason)
  deriving DecidableEq

/-- What a call shows outside: sink calls, and the answer of `recovery_intent`. -/
inductive Output where
  | sink (call : SinkCall)
  | intent (answer : Option RecoveryIntent)
  deriving DecidableEq

namespace Sequencer

def step (s : Sequencer) : Input → Traced Sequencer Output
  | .frame bytes feed nowNs =>
      ((s.ingest bytes feed nowNs).1, (s.ingest bytes feed nowNs).2.map .sink)
  | .recoveryIntent nowNs =>
      ((s.checkRecoveryIntent nowNs).1, [.intent (s.checkRecoveryIntent nowNs).2])
  | .sealDead reason => ((s.sealDead reason).1, (s.sealDead reason).2.map .sink)

/-- A run of a fresh sequencer. -/
def run (inputs : List Input) : Traced Sequencer Output := Machine.run step new inputs

end Sequencer

end HftProj.Arbitrator
