import HftProj.Lib.Literals
import HftProj.Transport.GroundTruth

/-!
# Building a replay schedule

The ground truth is cut into packets, each packet is lost or delayed on either feed, and each feed
ends with heartbeats and an end of session. Sixteen-bit arithmetic wraps, and every operation in
it is watched for a lost bit. `none` is a division by zero or a heartbeat loop that never ends.
-/

namespace HftProj.Testkit.ReplayBuilder

open HftProj.Lib HftProj.Protocol.Moldudp64 HftProj.Transport
open HftProj.Arbitrator (FeedId)

/-- A byte slice, which is never longer than its index type. -/
abbrev Slice := { bytes : List UInt8 // bytes.length < 2 ^ 63 }

/-! ## The random stream -/

structure SplitMix64 where
  state : UInt64
  deriving DecidableEq

def SplitMix64.nextU64 (r : SplitMix64) : UInt64 × SplitMix64 :=
  let state := r.state + 0x9E3779B97F4A7C15
  let z := state
  let z := (z ^^^ (z >>> 30)) * 0xBF58476D1CE4E5B9
  let z := (z ^^^ (z >>> 27)) * 0x94D049BB133111EB
  (z ^^^ (z >>> 31), ⟨state⟩)

def SplitMix64.nextF64 (r : SplitMix64) : Float × SplitMix64 :=
  let (draw, r) := r.nextU64
  ((draw >>> 11).toFloat * (1.0 / ((1 : UInt64) <<< 53).toFloat), r)

/-- `next_gaussian_approx`: twelve draws, less six. -/
def SplitMix64.nextGaussianApprox (r : SplitMix64) : Float × SplitMix64 :=
  let (sum, r) := (List.range 12).foldl (fun (sum, r) _ =>
    let (u, r) := r.nextF64
    (sum + u, r)) (0.0, r)
  (sum - 6.0, r)

/-! ## The configuration -/

inductive Packetize where
  | fixed (k : UInt16)
  | mtuBound (mtu : UInt16)
  | seededRange (min max : UInt16)
  deriving DecidableEq

inductive LossModel where
  | none
  | bernoulli (pPm : UInt32)
  | gilbertElliott (pG2bPm pB2gPm pDropGoodPm pDropBadPm : UInt32)
  deriving DecidableEq

inductive DelayModel where
  | none
  | gaussianApprox (meanNs : Int64) (sigmaNs : UInt64)

structure DropRange where
  seqFrom : UInt64
  seqToIncl : UInt64
  feedMask : UInt8
  deriving DecidableEq

structure ReplayConfig where
  seedA : UInt64
  seedB : UInt64
  msgsPerPacket : Packetize
  loss : Fin 2 → LossModel
  delay : Fin 2 → DelayModel
  baseRateMsgPerSec : UInt64
  heartbeatIntervalNs : UInt64
  guaranteeCoverage : Bool
  scriptedDrops : List DropRange
  sessionChangeAtMsg : Option UInt64
  feedsEnabled : UInt8

/-- The feed's bit of a mask is set. -/
def enabled (mask : UInt8) (feed : Fin 2) : Bool := mask &&& 1 <<< UInt8.ofNat feed.val ≠ 0

/-! ## Packetization -/

/-- The lengths of the complete messages, from a position on. -/
@[grind =]
def msgInfos (gt : List UInt8) : ℕ → ℕ → List ℕ
  | 0, _ => []
  | fuel + 1, pos =>
      if gt.length < pos + 2 then []
      else if gt.length < pos + prefixedLen gt pos then []
      else fromBeBytes (slice gt pos (pos + 2)) :: msgInfos gt fuel (pos + prefixedLen gt pos)

/-- The lengths of the messages of the ground truth. -/
def lengths (gt : Slice) : List ℕ := msgInfos gt.1 gt.1.length 0

/-- What sixteen bits keep. -/
def wrap16 (n : ℕ) : ℕ := n % 2 ^ 16

/-- Sixteen bits lose nothing. -/
def fits16 (n : ℕ) : Bool := n < 2 ^ 16

/-- A packet, and whether the sixteen-bit arithmetic behind its count kept every bit. -/
structure RawPacket where
  firstMsg : ℕ
  count : ℕ
  lossless : Bool
  deriving DecidableEq

/-- The loop over the messages that fit. -/
@[grind =]
def mtuLoop (maxPayload : ℕ) : List ℕ → (accumulated c : ℕ) → Bool → ℕ × Bool
  | [], _, c, ok => (c, ok)
  | len :: rest, accumulated, c, ok =>
      let blockLen := wrap16 (2 + len)
      let ok := ok && fits16 (2 + len) && fits16 (accumulated + blockLen)
      if 0 < c ∧ maxPayload < wrap16 (accumulated + blockLen) then (c, ok)
      else mtuLoop maxPayload rest (wrap16 (accumulated + blockLen)) (wrap16 (c + 1))
        (ok && fits16 (c + 1))

/-- The count of the next packet of the messages left. -/
def packetCount (mode : Packetize) (left : List ℕ) (prng : SplitMix64) :
    Option (ℕ × Bool × SplitMix64) :=
  match mode with
  | .fixed k => some (min k.toNat (wrap16 left.length), fits16 left.length, prng)
  | .mtuBound mtu =>
      let maxPayload := if 20 ≤ mtu then (mtu - 20).toNat else 50
      let (c, ok) := mtuLoop maxPayload left 0 0 true
      some (c, ok, prng)
  | .seededRange lo hi =>
      let range := (hi - lo + 1).toNat
      if range = 0 then none
      else
        let (draw, prng) := prng.nextU64
        let offset := draw.toNat % range
        let draw := wrap16 (lo.toNat + wrap16 offset)
        let ok := lo ≤ hi && fits16 (hi.toNat - lo.toNat + 1) && fits16 offset &&
          fits16 (lo.toNat + wrap16 offset) && fits16 left.length
        some (min draw (wrap16 left.length), ok, prng)

/-- The packets of the messages left; each takes one message at least. -/
@[grind =]
def packetize (mode : Packetize) :
    ℕ → (left : List ℕ) → (firstMsg : ℕ) → SplitMix64 → Option (List RawPacket × SplitMix64)
  | 0, _, _, prng => some ([], prng)
  | fuel + 1, left, firstMsg, prng =>
      if left = [] then some ([], prng)
      else do
        let (count, ok, prng) ← packetCount mode left prng
        let count := max 1 count
        let (packets, prng) ←
          packetize mode fuel (left.drop count) (firstMsg + count) prng
        some (⟨firstMsg, count, ok⟩ :: packets, prng)

/-! ## Packet events -/

/-- What the loop over the packets carries along. -/
structure Chaos where
  prng : Fin 2 → SplitMix64
  geState : Fin 2 → Bool
  cumulativeMsgs : UInt64
  events : List SchedEvent

def Chaos.draw (st : Chaos) (feed : Fin 2) : UInt64 × Chaos :=
  let (draw, prng) := (st.prng feed).nextU64
  (draw, { st with prng := Function.update st.prng feed prng })

/-- The packet's range meets a scripted drop of the feed. -/
def scripted (cfg : ReplayConfig) (feed : Fin 2) (firstSeq pktEndSeq : UInt64) : Bool :=
  cfg.scriptedDrops.any fun d =>
    enabled d.feedMask feed && !(pktEndSeq < d.seqFrom || firstSeq > d.seqToIncl)

/-- The loss of a packet on one feed. -/
def evalLoss (cfg : ReplayConfig) (firstSeq pktEndSeq : UInt64) (feed : Fin 2) (st : Chaos) :
    Bool × Chaos :=
  if !enabled cfg.feedsEnabled feed then (true, st)
  else if scripted cfg feed firstSeq pktEndSeq then (true, st)
  else
    match cfg.loss feed with
    | .none => (false, st)
    | .bernoulli pPm =>
        let (draw, st) := st.draw feed
        (draw % 1000 < pPm.toUInt64, st)
    | .gilbertElliott pG2bPm pB2gPm pDropGoodPm pDropBadPm =>
        let isBad := st.geState feed
        let dropP := if isBad then pDropBadPm else pDropGoodPm
        let (draw, st) := st.draw feed
        let (transDraw, st) := st.draw feed
        let next :=
          if isBad then !decide (transDraw % 1000 < pB2gPm.toUInt64)
          else decide (transDraw % 1000 < pG2bPm.toUInt64)
        (draw % 1000 < dropP.toUInt64, { st with geState := Function.update st.geState feed next })

/-- `delay_ns` of a delivery. -/
def delayNs (cfg : ReplayConfig) (feed : Fin 2) (st : Chaos) : Int64 × Chaos :=
  match cfg.delay feed with
  | .none => (0, st)
  | .gaussianApprox meanNs sigmaNs =>
      let (z, prng) := (st.prng feed).nextGaussianApprox
      ((meanNs.toFloat + z * sigmaNs.toFloat).round.toInt64,
        { st with prng := Function.update st.prng feed prng })

/-- The base time moved by a delay, stopping at both ends of the clock. -/
def releaseVt (baseVt : UInt64) (delay : Int64) : UInt64 :=
  if 0 ≤ delay then UInt64.ofNat (saturatingAdd baseVt.toNat delay.toUInt64.toNat)
  else UInt64.ofNat (baseVt.toNat - (-delay).toUInt64.toNat)

/-- The delivery of a packet on one feed, unless it is dropped there. -/
def deliver (cfg : ReplayConfig) (baseVt : UInt64) (kind : SchedKind) (dropped : Fin 2 → Bool)
    (st : Chaos) (feed : Fin 2) : Chaos :=
  if dropped feed then st
  else
    let (delay, st) := delayNs cfg feed st
    { st with
      events := st.events ++ [⟨releaseVt baseVt delay, UInt8.ofNat feed.val, kind⟩] }

/-- The packet's first sequence number, in the session that the packet's first message is in. -/
def packetFirstSeq (cfg : ReplayConfig) (firstMsg : UInt64) : UInt64 :=
  match cfg.sessionChangeAtMsg with
  | some splitM => if splitM ≤ firstMsg then firstMsg - splitM + 1 else firstMsg + 1
  | none => firstMsg + 1

def nsPerMsg (cfg : ReplayConfig) : UInt64 :=
  if 0 < cfg.baseRateMsgPerSec then 1000000000 / cfg.baseRateMsgPerSec else 1000

/-- A packet dropped on both feeds is delivered on one when coverage is guaranteed. -/
def guarantee (cfg : ReplayConfig) (dropped : Fin 2 → Bool) (st : Chaos) : (Fin 2 → Bool) × Chaos :=
  if cfg.guaranteeCoverage && dropped 0 && dropped 1 && enabled cfg.feedsEnabled 0 &&
      enabled cfg.feedsEnabled 1 then
    let (draw, st) := st.draw 0
    let chosenFeed : Fin 2 := if draw &&& 1 = 0 then 0 else 1
    (Function.update dropped chosenFeed false, st)
  else (dropped, st)

/-- The body of the loop over the packets. -/
def packetStep (cfg : ReplayConfig) (st : Chaos) (pkt : RawPacket) : Chaos :=
  let firstMsg := UInt64.ofNat pkt.firstMsg
  let count := UInt16.ofNat pkt.count
  let firstSeq := packetFirstSeq cfg firstMsg
  let baseVt := st.cumulativeMsgs * nsPerMsg cfg
  let st := { st with cumulativeMsgs := st.cumulativeMsgs + count.toUInt64 }
  let pktEndSeq := firstSeq + count.toUInt64 - 1
  let (droppedA, st) := evalLoss cfg firstSeq pktEndSeq 0 st
  let (droppedB, st) := evalLoss cfg firstSeq pktEndSeq 1 st
  let (dropped, st) := guarantee cfg (fun feed => if feed = 0 then droppedA else droppedB) st
  [0, 1].foldl (deliver cfg baseVt (.packet firstSeq firstMsg count) dropped) st

/-! ## Termination events -/

/-- The loop of rolling heartbeat times, with as many rounds as the clock has values. -/
@[grind =]
def rollingVts (interval finalVt : UInt64) : ℕ → UInt64 → Option (List UInt64)
  | 0, _ => none
  | fuel + 1, hbVt =>
      if hbVt < finalVt then (rollingVts interval finalVt fuel (hbVt + interval)).map (hbVt :: ·)
      else some []

def rolling (interval finalVt : UInt64) : Option (List UInt64) :=
  if 0 < interval then rollingVts interval finalVt (2 ^ 64) interval else some []

/-- The times of the terminal heartbeat and of the end-of-session train. -/
def terminalVt (finalVt : UInt64) : UInt64 := finalVt + 1000

def eosVt (finalVt : UInt64) (step : ℕ) : UInt64 :=
  terminalVt finalVt + 50000000 + UInt64.ofNat step * 10000000

/-- What ends a feed. -/
def terminate (rollingAt : List UInt64) (finalVt nextSeq : UInt64) (feed : FeedId) :
    List SchedEvent :=
  (rollingAt.map fun vt => ⟨vt, feed, .heartbeat nextSeq⟩) ++
    ⟨terminalVt finalVt, feed, .heartbeat nextSeq⟩ ::
      (List.range 5).map fun step => ⟨eosVt finalVt step, feed, .endOfSession nextSeq⟩

def kindRank (e : SchedEvent) : ℕ :=
  match e.kind with
  | .packet .. => 0
  | .heartbeat _ => 1
  | .endOfSession _ => 2

/-- The total order law: release time, feed, kind, sequence number. -/
def eventCmp : SchedEvent → SchedEvent → Ordering :=
  compareLex (compareOn fun e => e.releaseVt.toNat)
    (compareLex (compareOn fun e => e.feed.toNat)
      (compareLex (compareOn kindRank) (compareOn fun e => e.kind.seq)))

/-- The next sequence number that every heartbeat announces. -/
def finalNextSeq (cfg : ReplayConfig) (totalMsgs : UInt64) : UInt64 :=
  match cfg.sessionChangeAtMsg with
  | some splitM => if splitM ≤ totalMsgs then totalMsgs - splitM + 1 else totalMsgs + 1
  | none => totalMsgs + 1

/-! ## The schedule -/

/-- The state of the loop over the packets before the first one. -/
def Chaos.start (cfg : ReplayConfig) (prngA : SplitMix64) : Chaos where
  prng feed := if feed = 0 then prngA else ⟨cfg.seedB⟩
  geState _ := false
  cumulativeMsgs := 0
  events := []

/-- The packets of a ground truth. -/
def packets (cfg : ReplayConfig) (gt : Slice) : Option (List RawPacket × SplitMix64) :=
  packetize cfg.msgsPerPacket (lengths gt).length (lengths gt) 0 ⟨cfg.seedA⟩

/-- The packet events, in the order they are made in. -/
def packetEvents (cfg : ReplayConfig) (pkts : List RawPacket) (prngA : SplitMix64) :
    List SchedEvent := (pkts.foldl (packetStep cfg) (.start cfg prngA)).events

/-- The latest release. -/
def finalVt (events : List SchedEvent) : UInt64 :=
  (events.map SchedEvent.releaseVt).foldl max 0

/-- The events that end the feeds, behind the packets. -/
def terminals (cfg : ReplayConfig) (rollingAt : List UInt64) (final nextSeq : UInt64) :
    List SchedEvent :=
  ([0, 1] : List (Fin 2)).flatMap fun feed =>
    if enabled cfg.feedsEnabled feed then terminate rollingAt final nextSeq (UInt8.ofNat feed.val)
    else []

def splitSession : SessionId :=
  ⟨['S', 'P', 'L', 'I', 'T', 'S', 'E', 'S', 'S', '2'].map Char.toUInt8, rfl⟩

/-- `build_schedule`. -/
def buildSchedule (gt : Slice) (cfg : ReplayConfig) : Option ReplaySchedule :=
  if lengths gt = [] then some ⟨[], none⟩
  else do
    let (pkts, prngA) ← packets cfg gt
    let events := packetEvents cfg pkts prngA
    let final := finalVt events
    let nextSeq := finalNextSeq cfg (UInt64.ofNat (lengths gt).length)
    let rollingAt ←
      if cfg.feedsEnabled &&& 3 = 0 then some [] else rolling cfg.heartbeatIntervalNs final
    some
      { events := (events ++ terminals cfg rollingAt final nextSeq).mergeSort
          fun a b => (eventCmp a b).isLE
        sessionSplit := cfg.sessionChangeAtMsg.map fun m => (m, splitSession) }

end HftProj.Testkit.ReplayBuilder
