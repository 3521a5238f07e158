import HftProj.Protocol.Packet

/-!
# States, events, counters and sink calls of the sequencer

The sink only receives calls, so it is represented by the list of calls made to
it. Clocks and sequence numbers are 64-bit values kept as natural numbers, and
telemetry counters are natural numbers.
-/

namespace HftProj.Arbitrator

open HftProj.Lib HftProj.Protocol HftProj.Protocol.Moldudp64 HftProj.Protocol.Packet

/-- Origin of a frame; only its lowest bit selects a counter block. -/
abbrev FeedId := UInt8

inductive State where
  | init
  | contig
  | gap
  | eosPersist
  | ended
  | dead
  deriving DecidableEq

inductive DeadReason where
  | retryExhausted
  | tcpUnreachable
  | sealed
  deriving DecidableEq

/-- Test-only mutation modes; `none` is the production behaviour. -/
inductive SequencerMutation where
  | none
  | disableClearOnAdvance
  | offByOneClamp
  | dropStagedAtEos
  deriving DecidableEq

structure LiveFeedProof where
  gen : ℕ
  deriving DecidableEq

inductive Event where
  | gapOpened (fromSeq : ℕ) (ahead : Option ℕ) (gen : ℕ)
  | reAnchored (gen at_ : ℕ)
  | sessionBoundary (prev next : SessionId) (gen : ℕ)
  | endOfSession (session : SessionId) (finalWm announcedNext : ℕ)
  | sessionDead (reason : DeadReason) (lastWm : ℕ)
  deriving DecidableEq

structure RecoveryIntent where
  fromSeq : ℕ
  toExcl : ℕ
  deriving DecidableEq

/-- Index entry of a block: its sequence number and its payload's byte range in the frame. -/
abbrev Triple := ℕ × ℕ × ℕ

/-- One call made to the sink. -/
inductive SinkCall where
  | onMsg (proof : LiveFeedProof) (seq : ℕ) (msg : List UInt8)
  | onEvent (ev : Event)
  | onSpan (proof : LiveFeedProof) (firstSeq count : ℕ) (body : List UInt8)
      (blocks : List Triple)
  deriving DecidableEq

structure FeedCounters where
  packets : ℕ := 0
  dups : ℕ := 0
  bytes : ℕ := 0
  deriving DecidableEq

structure ViolationCounters where
  truncated : ℕ := 0
  trailingBytes : ℕ := 0
  blockOverrun : ℕ := 0
  zeroLengthMessage : ℕ := 0
  seqOverflow : ℕ := 0
  payloadInvalid : ℕ := 0
  other : ℕ := 0
  deriving DecidableEq

def ViolationCounters.recordFrameError (v : ViolationCounters) : FrameError → ViolationCounters
  | .truncated _ _ => { v with truncated := v.truncated + 1 }
  | .trailingBytes _ => { v with trailingBytes := v.trailingBytes + 1 }
  | .blockOverrun => { v with blockOverrun := v.blockOverrun + 1 }
  | .zeroLengthMessage => { v with zeroLengthMessage := v.zeroLengthMessage + 1 }
  | .seqOverflow => { v with seqOverflow := v.seqOverflow + 1 }

def ViolationCounters.recordPacketError (v : ViolationCounters) : PacketError → ViolationCounters
  | .framing e => v.recordFrameError e
  | .payload _ => { v with payloadInvalid := v.payloadInvalid + 1 }

structure Counters where
  feedA : FeedCounters := {}
  feedB : FeedCounters := {}
  violations : ViolationCounters := {}
  totalViolations : ℕ := 0
  stagedMsgs : ℕ := 0
  dupMsgs : ℕ := 0
  beyondWindowDropped : ℕ := 0
  windowFlushed : ℕ := 0
  gapOpens : ℕ := 0
  reanchors : ℕ := 0
  heartbeats : ℕ := 0
  eosSeen : ℕ := 0
  eosDup : ℕ := 0
  sessions : ℕ := 0
  dataAfterEos : ℕ := 0
  ignoredAfterDead : ℕ := 0
  intentsIssued : ℕ := 0
  msgsEmitted : ℕ := 0
  deriving DecidableEq

/-- Update the counter block of a feed. -/
def Counters.feedMut (c : Counters) (feed : FeedId) (f : FeedCounters → FeedCounters) : Counters :=
  if feed &&& 1 = 0 then { c with feedA := f c.feedA } else { c with feedB := f c.feedB }

/-- Count a violation of a frame or of a payload. -/
def Counters.recordFrameError (c : Counters) (e : FrameError) : Counters :=
  { c with
    violations := c.violations.recordFrameError e
    totalViolations := c.totalViolations + 1 }

def Counters.recordPacketError (c : Counters) (e : PacketError) : Counters :=
  { c with
    violations := c.violations.recordPacketError e
    totalViolations := c.totalViolations + 1 }

/-- Count a frame too short for a header. -/
def Counters.recordTruncated (c : Counters) : Counters :=
  { c with
    violations := { c.violations with truncated := c.violations.truncated + 1 }
    totalViolations := c.totalViolations + 1 }

/-- Count a data packet whose span does not fit 64 bits. -/
def Counters.recordSeqOverflow (c : Counters) : Counters :=
  { c with
    violations := { c.violations with seqOverflow := c.violations.seqOverflow + 1 }
    totalViolations := c.totalViolations + 1 }

/-- Count a data packet behind the end of its session. -/
def Counters.recordDataAfterEos (c : Counters) : Counters :=
  { c with dataAfterEos := c.dataAfterEos + 1, totalViolations := c.totalViolations + 1 }

/-- Count a pure duplicate of `n` messages. -/
def Counters.recordDuplicate (c : Counters) (feed : FeedId) (n : ℕ) : Counters :=
  { c.feedMut feed (fun fc => { fc with dups := fc.dups + 1 }) with dupMsgs := c.dupMsgs + n }

end HftProj.Arbitrator
