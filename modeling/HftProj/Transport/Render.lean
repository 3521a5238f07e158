import HftProj.Arbitrator.Batch
import HftProj.Transport.Schedule

/-!
# The rendered transport

Every event is rendered once, at construction, into one blob; a directory tells where.
Deliveries of the same messages share a region. The ten session bytes of a frame that
carries the resettable session are zeroed there and patched in place by `reset`; `poll`
releases directory entries in schedule order against a virtual clock.
-/

namespace HftProj.Transport

open HftProj.Lib HftProj.Protocol HftProj.Protocol.Moldudp64 HftProj.Protocol.Packet
open HftProj.Arbitrator

/-- What a cast to 32 bits keeps. -/
def asU32 (n : ℕ) : ℕ := n % 2 ^ 32

/-! ## Construction -/

structure FrameMeta where
  offset : ℕ := 0
  len : ℕ := 0
  feed : FeedId := 0
  blkBase : ℕ := 0
  blkCount : ℕ := 0
  valid : ℕ := 0
  firstSeq : ℕ := 0
  deriving DecidableEq

abbrev AliasKey := UInt64 × UInt64 × UInt16

structure AliasVal where
  off : ℕ
  blkBase : ℕ
  blkCount : ℕ
  valid : ℕ
  lastEvt : ℕ
  deriving DecidableEq

/-- The messages a packet carries; only packets of at least one share regions. -/
def SchedKind.aliasKey : SchedKind → Option AliasKey
  | .packet firstSeq firstMsg count =>
      if 0 < count then some (firstSeq, firstMsg, count) else none
  | .heartbeat _ | .endOfSession _ => none

/-- The first sequence number a directory entry keeps. -/
def SchedKind.metaFirstSeq : SchedKind → ℕ
  | .packet firstSeq _ _ => firstSeq.toNat
  | .heartbeat _ | .endOfSession _ => 0

/-- A packet in front of the split carries the resettable session. -/
def ReplaySchedule.patchableMsg (sched : ReplaySchedule) (firstMsg : UInt64) : Bool :=
  match sched.sessionSplit with
  | some (splitM, _) => firstMsg < splitM
  | none => true

def ReplaySchedule.patchable (sched : ReplaySchedule) : SchedKind → Bool
  | .packet _ firstMsg _ => sched.patchableMsg firstMsg
  | .heartbeat _ | .endOfSession _ => sched.sessionSplit.isNone

/-- The block walk over a frame just rendered. -/
structure Chain where
  triples : List Triple
  pos : ℕ
  seq : ℕ
  n : ℕ := 0
  valid : ℕ := 0
  ok : Bool := true
  deriving DecidableEq

@[grind =]
def chainLoop (scratch : List UInt8) (len : ℕ) : ℕ → Chain → Chain
  | 0, c => c
  | k + 1, c =>
      if scratch.length < c.pos + 2 then { c with ok := false }
      else
        let blen := fromBeBytes (slice scratch c.pos (c.pos + 2))
        let start := c.pos + 2
        let stop := start + blen
        if len < stop then { c with ok := false }
        else
          let passes := c.valid = c.n ∧ (Itch5.validate (slice scratch start stop)).isOk = true
          chainLoop scratch len k
            { triples := c.triples ++ [(c.seq, start, stop)]
              pos := stop
              seq := wrappingAdd c.seq 1
              n := c.n + 1
              valid := if passes then c.valid + 1 else c.valid
              ok := c.ok }

/-- The state of the construction loop. -/
structure Build where
  blob : List UInt8 := []
  metas : List FrameMeta := []
  vts : List ℕ := []
  triples : List Triple := []
  patchEvts : List (ℕ × ℕ) := []
  aliasMap : List (AliasKey × AliasVal) := []
  cursors : Cursor × Cursor := ({}, {})
  scratch : List UInt8 := List.replicate ARENA_SLOT_SIZE 0
  aliasedFrames : ℕ := 0
  deriving DecidableEq

inductive AliasOutcome where
  | aliased (key : AliasKey) (v : AliasVal)
  | primary
  | rejected
  deriving DecidableEq

/-- The alias map's answer for a rendered event: a region whose bytes past the header are
those just rendered, none, or one that differs. -/
def Build.aliasOutcome (b : Build) (kind : SchedKind) (len : ℕ) : AliasOutcome :=
  match kind.aliasKey with
  | none => .primary
  | some key =>
      match b.aliasMap.lookup key with
      | none => .primary
      | some v =>
          if v.off + len ≤ b.blob.length ∧
              slice b.blob (v.off + HEADER_LEN) (v.off + len) = slice b.scratch HEADER_LEN len then
            .aliased key v
          else .rejected

/-- The directory entry of a placed event, with its own patch site when no entry of the
alias map stands for it. A packet without a block index is never emitted. -/
def Build.enter (b : Build) (sched : ReplaySchedule) (evI : ℕ) (ev : SchedEvent) (len : ℕ)
    (rejected : Bool) (off blkBase blkCount valid : ℕ) : Build :=
  if ev.kind.aliasKey.isSome ∧ blkCount = 0 then
    { b with metas := b.metas ++ [{ feed := ev.feed }] }
  else
    { b with
      patchEvts := b.patchEvts ++
        if sched.patchable ev.kind ∧ (ev.kind.aliasKey.isNone ∨ rejected) then
          [(asU32 evI, off)] else []
      metas := b.metas ++
        [{ offset := off
           len := len
           feed := ev.feed
           blkBase := blkBase
           blkCount := blkCount
           valid := valid
           firstSeq := ev.kind.metaFirstSeq }] }

/-- Index the blocks of a rendered frame: the triples with its own behind them, where these
start, how many there are and how many of them lead with valid messages. An inconsistent
walk leaves none. -/
def indexBlocks (scratch : List UInt8) (triples : List Triple) (len : ℕ) :
    SchedKind → List Triple × ℕ × ℕ × ℕ
  | .packet firstSeq _ count =>
      let base := asU32 triples.length
      let c := chainLoop scratch len count.toNat
        { triples := triples, pos := HEADER_LEN, seq := firstSeq.toNat }
      if ¬c.ok ∨ c.pos ≠ len then (c.triples.take base, 0, 0, 0)
      else (c.triples, base, c.n, c.valid)
  | .heartbeat _ | .endOfSession _ => (triples, 0, 0, 0)

/-- Append a region of its own for a rendered event, and register it for the deliveries of
the same messages. -/
def Build.append (b : Build) (sched : ReplaySchedule) (evI : ℕ) (ev : SchedEvent) (len : ℕ)
    (rejected : Bool) : Build :=
  let off := asU32 b.blob.length
  let blob := b.blob ++ b.scratch.take len
  let blob :=
    if sched.patchable ev.kind then writeAt blob off (List.replicate 10 0) else blob
  let (triples, blkBase, blkCount, valid) := indexBlocks b.scratch b.triples len ev.kind
  let v : AliasVal := ⟨off, blkBase, blkCount, valid, asU32 evI⟩
  let aliasMap :=
    match ev.kind.aliasKey with
    | some key =>
        if blkCount = key.2.2.toNat ∧ b.aliasMap.lookup key = none then b.aliasMap ++ [(key, v)]
        else b.aliasMap
    | none => b.aliasMap
  { b with blob := blob, triples := triples, aliasMap := aliasMap }.enter sched evI ev len rejected
    off blkBase blkCount valid

/-- Extend the gate of a shared region to a later event. -/
def gate (aliasMap : List (AliasKey × AliasVal)) (key : AliasKey) (evI : ℕ) :
    List (AliasKey × AliasVal) :=
  aliasMap.map fun e => if e.1 = key then (e.1, { e.2 with lastEvt := max e.2.lastEvt evI }) else e

def Build.place (b : Build) (sched : ReplaySchedule) (evI : ℕ) (ev : SchedEvent) (len : ℕ) :
    Build :=
  match b.aliasOutcome ev.kind len with
  | .aliased key v =>
      { b with
        aliasedFrames := b.aliasedFrames + 1
        aliasMap := gate b.aliasMap key (asU32 evI) }.enter sched evI ev len false
        v.off v.blkBase v.blkCount v.valid
  | .primary => b.append sched evI ev len false
  | .rejected => b.append sched evI ev len true

/-- One event of the construction loop. -/
def Build.render (gt : List UInt8) (sched : ReplaySchedule) (session : SessionId) (b : Build)
    (evI : ℕ) (ev : SchedEvent) : Build :=
  let second := ev.feed.toNat % 2 = 1
  let r := renderEventStandalone gt ev sched session b.scratch
    (if second then b.cursors.2 else b.cursors.1)
  let b := { b with
    scratch := r.slot
    cursors := if second then (b.cursors.1, r.cursor) else (r.cursor, b.cursors.2)
    vts := b.vts ++ [ev.releaseVt.toNat] }
  match r.len with
  | some len => b.place sched evI ev len
  | none => { b with metas := b.metas ++ [{ feed := ev.feed }] }

/-- The events rendered one after the other, from number `evI` on. -/
@[grind =]
def Build.renderAll (gt : List UInt8) (sched : ReplaySchedule) (session : SessionId) :
    ℕ → List SchedEvent → Build → Build
  | _, [], b => b
  | evI, ev :: events, b => renderAll gt sched session (evI + 1) events
      (b.render gt sched session evI ev)

/-- Patch sites are ordered by the event that gates them. -/
def siteLe (a b : ℕ × ℕ) : Bool := a.1 < b.1 || (a.1 == b.1 && a.2 ≤ b.2)

/-- The patch list: the sites entered on the way and one for each shared region, gated on
the last event that refers to it. -/
def Build.sites (b : Build) (sched : ReplaySchedule) : List (ℕ × ℕ) :=
  (b.patchEvts ++ b.aliasMap.filterMap fun e =>
    if sched.patchableMsg e.1.2.1 then some (e.2.lastEvt, e.2.off) else none).mergeSort siteLe

/-- Exclusive ends of the groups of release times: a group runs as long as no time exceeds
the one it starts with. -/
@[grind =]
def groupEnds : ℕ → ℕ → List ℕ → List ℕ
  | 0, _, _ => []
  | _, _, [] => []
  | fuel + 1, base, v :: vts =>
      let run := (vts.takeWhile (· ≤ v)).length
      List.replicate (run + 1) (asU32 (base + run + 1)) ++
        groupEnds fuel (base + run + 1) (vts.drop run)

/-! ## The transport -/

structure ReplayTransport where
  schedule : ReplaySchedule
  eventIdx : ℕ
  virtualClock : ℕ
  frames : List UInt8
  metas : List FrameMeta
  vts : List ℕ
  groupEnd : List ℕ
  triples : List Triple
  patchEvts : List (ℕ × ℕ)
  coalesce : ℕ
  session : SessionId
  clockClamp : Option ℕ
  batchEvent : List ℕ
  aliasedFrames : ℕ
  deriving DecidableEq

def ReplaySchedule.firstVt (sched : ReplaySchedule) : ℕ :=
  (sched.events.head?.map fun e => e.releaseVt.toNat).getD 0

namespace ReplayTransport

/-- Write the current session into every patchable frame. -/
def patchSessions (t : ReplayTransport) : ReplayTransport :=
  { t with frames := writeAll t.session.1 (t.patchEvts.map Prod.snd) t.frames }

def new (gt : List UInt8) (sched : ReplaySchedule) (session : SessionId) : ReplayTransport :=
  let b := Build.renderAll gt sched session 0 sched.events {}
  patchSessions
    { schedule := sched
      eventIdx := 0
      virtualClock := sched.firstVt
      frames := b.blob
      metas := b.metas
      vts := b.vts
      groupEnd := groupEnds b.vts.length 0 b.vts
      triples := b.triples
      patchEvts := b.sites sched
      coalesce := 1
      session := session
      clockClamp := none
      batchEvent := []
      aliasedFrames := b.aliasedFrames }

def setPollCoalesce (t : ReplayTransport) (k : ℕ) : ReplayTransport :=
  { t with coalesce := max k 1 }

def setClockClamp (t : ReplayTransport) (clamp : Option ℕ) : ReplayTransport :=
  { t with clockClamp := clamp }

/-- The restart that leaves the blob untouched. -/
def resetCursors (t : ReplayTransport) (session : SessionId) : ReplayTransport :=
  { t with
    eventIdx := 0
    virtualClock := t.schedule.firstVt
    session := session
    clockClamp := none }

def reset (t : ReplayTransport) (session : SessionId) : ReplayTransport :=
  (t.resetCursors session).patchSessions

/-- The walk of `patch_range` over at most `budget` sites: how many it patches. -/
@[grind =]
def patchCount (uptoEvt : ℕ) : ℕ → List (ℕ × ℕ) → ℕ
  | 0, _ => 0
  | _, [] => 0
  | budget + 1, site :: sites =>
      if uptoEvt ≤ site.1 then 0 else patchCount uptoEvt budget sites + 1

/-- Patch the sites gated below an event, from a position of the patch list on; returns
the position reached. -/
def patchRange (t : ReplayTransport) (session : SessionId) (fromIdx uptoEvt budget : ℕ) :
    ℕ × ReplayTransport :=
  let n := patchCount uptoEvt budget (t.patchEvts.drop fromIdx)
  (fromIdx + n, { t with
    frames := writeAll session.1 (((t.patchEvts.drop fromIdx).take n).map Prod.snd) t.frames })

/-- The restart that patches only the sites not patched ahead of it. -/
def resetPrepatched (t : ReplayTransport) (session : SessionId) (fromIdx : ℕ) : ReplayTransport :=
  let t := t.resetCursors session
  { t with frames := writeAll session.1 ((t.patchEvts.drop fromIdx).map Prod.snd) t.frames }

/-! ## Polling -/

/-- The group chain of a poll: the event behind the released groups and the latest of
their starting times. -/
@[grind =]
def releaseChain (t : ReplayTransport) (limit : Option ℕ) : ℕ → ℕ → ℕ → ℕ × ℕ
  | 0, e, mx => (e, mx)
  | groups + 1, e, mx =>
      if e < t.metas.length then
        let v := t.vts.getD e 0
        if limit.any (· < v) then (e, mx)
        else releaseChain t limit groups (t.groupEnd.getD e 0) (max v mx)
      else (e, mx)

/-- The release loop: the events emitted with their directory entries, and the event the
cursor stops at. The first argument bounds the iterations. -/
@[grind =]
def releaseLoop (t : ReplayTransport) (exactPacing : Bool) (vclock limitEvt cap : ℕ) :
    ℕ → ℕ → List (ℕ × FrameMeta) → ℕ × List (ℕ × FrameMeta)
  | 0, evt, out => (evt, out)
  | fuel + 1, evt, out =>
      if evt < limitEvt ∧ out.length < cap then
        if exactPacing ∧ vclock < t.vts.getD evt 0 then (evt, out)
        else
          let m := t.metas.getD evt {}
          -- a tombstone moves the cursor and is never emitted
          if m.len = 0 then releaseLoop t exactPacing vclock limitEvt cap fuel (evt + 1) out
          else releaseLoop t exactPacing vclock limitEvt cap fuel (evt + 1) (out ++ [(evt, m)])
      else (evt, out)

def BATCH_CAPACITY : ℕ := 256

/-- The pacing and the release of one poll, shared by all the emit modes: the transport
left behind and the events emitted. -/
def pollEvents (t : ReplayTransport) (maxVt : Option ℕ) (cap : ℕ) :
    ReplayTransport × List (ℕ × FrameMeta) :=
  if t.metas.length ≤ t.eventIdx then (t, [])
  else
    let firstVt := t.vts.getD t.eventIdx 0
    let clamp := maxVt.or t.clockClamp
    let limit := (clamp.map (min firstVt)).getD firstVt
    let vclock := max t.virtualClock limit
    let chain := t.releaseChain clamp t.coalesce t.eventIdx 0
    let vclock := max vclock chain.2
    let exactPacing := t.coalesce == 1
    let limitEvt := if exactPacing then t.metas.length else chain.1
    let r := t.releaseLoop exactPacing vclock limitEvt cap (limitEvt - t.eventIdx) t.eventIdx []
    ({ t with eventIdx := r.1, virtualClock := vclock }, r.2)

/-- A released frame; `offset` stands for the pointer into the blob. -/
structure FrameView where
  offset : ℕ
  len : ℕ
  feed : FeedId
  blkBase : ℕ
  blkCount : ℕ
  valid : ℕ
  firstSeq : ℕ
  sessLo : ℕ
  sessHi : ℕ
  deriving DecidableEq

def view (t : ReplayTransport) (m : FrameMeta) : FrameView :=
  let frame := slice t.frames m.offset (m.offset + m.len)
  { offset := m.offset
    len := m.len
    feed := m.feed
    blkBase := m.blkBase
    blkCount := m.blkCount
    valid := m.valid
    firstSeq := m.firstSeq
    sessLo := fromLeBytes (slice frame 0 8)
    sessHi := fromLeBytes (slice frame 2 10) }

/-- The classic poll. The map back to events is kept in exact pacing only. -/
def pollClamped (t : ReplayTransport) (maxVt : Option ℕ) : ReplayTransport × List FrameView :=
  let r := t.pollEvents maxVt BATCH_CAPACITY
  let batch := r.2.map fun e => r.1.view e.2
  if t.metas.length ≤ t.eventIdx then (r.1, batch)
  else if t.coalesce = 1 then ({ r.1 with batchEvent := r.2.map Prod.fst }, batch)
  else (r.1, batch)

def poll (t : ReplayTransport) : ReplayTransport × List FrameView := t.pollClamped none

def frameBlocksMemo (t : ReplayTransport) (f : FrameView) : List Triple × Option FrameMemo :=
  if f.blkCount = 0 then ([], none)
  else (slice t.triples f.blkBase (f.blkBase + f.blkCount), some ⟨f.valid⟩)

/-- The entry of a released frame, read at once; addresses count from the blob's base. -/
def entry (t : ReplayTransport) (f : FrameView) : FrameEntry :=
  { bytes := slice t.frames f.offset (f.offset + f.len)
    addr := f.offset
    feed := f.feed
    blocks := (t.frameBlocksMemo f).1
    memo := (t.frameBlocksMemo f).2
    firstSeq := f.firstSeq
    sessLo := f.sessLo
    sessHi := f.sessHi
    elig := f.feed &&& 3 }

def batchEntries (t : ReplayTransport) (batch : List FrameView) : List FrameEntry :=
  batch.map t.entry

end ReplayTransport

end HftProj.Transport
