import HftProj.Arbitrator.Indexed
import HftProj.Arbitrator.Invariants

/-!
# Batched ingest

A batch of entries is ingested in maximal steady runs. The scan over a run keeps the
watermark, the feed counters and the emissions in locals and touches no other state; it
stops at the first entry that needs the classic ladder, which is then applied alone.
Every driver is one loop around its scan, and a batch ends in the state and delivers the
calls of its entries ingested one by one.
-/

namespace HftProj.Arbitrator

open HftProj.Lib HftProj.Protocol HftProj.Protocol.Moldudp64 HftProj.Protocol.Packet

/-! ## Entries and the calls of a batch -/

/-- One frame ready for batched ingest; `addr` is the address of its first byte. -/
structure FrameEntry where
  bytes : List UInt8
  addr : ℕ
  feed : FeedId
  blocks : List Triple
  memo : Option FrameMemo
  firstSeq : ℕ
  sessLo : ℕ
  sessHi : ℕ
  elig : UInt8
  deriving DecidableEq

/-- What a publisher promises of an entry. -/
structure FrameEntry.Published (e : FrameEntry) : Prop where
  indexed : Indexed e.bytes e.blocks
  memoized : Memoized e.bytes e.blocks e.memo
  first : ∀ b ∈ e.blocks.head?, e.firstSeq = b.1
  session : e.blocks ≠ [] → e.sessLo = fromLeBytes (slice e.bytes 0 8) ∧
    e.sessHi = fromLeBytes (slice e.bytes 2 10)

structure SpanRec where
  firstSeq : ℕ
  count : ℕ
  body : List UInt8
  blocks : List Triple
  deriving DecidableEq

/-- One call made to the sink of a batch. A packed batch carries one word for each span:
its offset from `base`, its length and its count. -/
inductive BatchCall where
  | call (c : SinkCall)
  | spanBatch (proof : LiveFeedProof) (recs : List SpanRec)
  | spanBatchPacked (proof : LiveFeedProof) (firstSeq total base : ℕ) (words : List ℕ)
  deriving DecidableEq

/-- The default of `on_span_batch`: the spans one by one. -/
def SpanRec.span (proof : LiveFeedProof) (r : SpanRec) : SinkCall :=
  .onSpan proof r.firstSeq r.count r.body r.blocks

def readBytes (mem : ℕ → UInt8) (addr len : ℕ) : List UInt8 :=
  (List.range len).map fun i => mem (addr + i)

/-- The messages of packed spans; the length prefix of the first one precedes the body. -/
@[grind =]
def unpack (mem : ℕ → UInt8) (base : ℕ) : ℕ → List ℕ → List (ℕ × List UInt8)
  | _, [] => []
  | firstSeq, word :: words =>
      let off := word % 2 ^ 32
      let len := word / 2 ^ 32 % 2 ^ 16
      let count := word / 2 ^ 48
      number firstSeq (splitBlocks count (readBytes mem (base + off - 2) (len + 2))).1 ++
        unpack mem base (wrappingAdd firstSeq count) words

/-- A batch call as messages and events, over the memory that its bodies lie in. -/
def BatchCall.expand (mem : ℕ → UInt8) : BatchCall → List SinkCall
  | .call c => c.expand
  | .spanBatch proof recs => Arbitrator.expand (recs.map (SpanRec.span proof))
  | .spanBatchPacked proof firstSeq _ base words => deliver proof (unpack mem base firstSeq words)

def expandBatch (mem : ℕ → UInt8) (calls : List BatchCall) : List SinkCall :=
  calls.flatMap (BatchCall.expand mem)

/-! ## Span emission -/

/-- The span buffer of a scan. -/
structure SpanEmit (ε : Type) where
  new : ε
  push : ε → (firstSeq count addr : ℕ) → (body : List UInt8) → (blocks : List Triple) → ε
  isFull : ε → Bool
  flush : ε → LiveFeedProof → ε × List BatchCall

def STEADY_RECS : ℕ := 32

/-- The classic emitter buffers a record for each span. -/
def recEmitter : SpanEmit (List SpanRec) where
  new := []
  push recs firstSeq count _ body blocks := recs ++ [⟨firstSeq, count, body, blocks⟩]
  isFull recs := recs.length == STEADY_RECS
  flush recs proof := if recs.length ≠ 0 then ([], [.spanBatch proof recs]) else (recs, [])

/-! ## The steady scan -/

/-- The locals of a scan. -/
structure Scan (ε : Type) where
  w : ℕ
  pk : ℕ × ℕ := (0, 0)
  byt : ℕ × ℕ := (0, 0)
  dup : ℕ × ℕ := (0, 0)
  dupMsgs : ℕ := 0
  emitted : ℕ := 0
  progressed : Bool := false
  em : ε
  calls : List BatchCall := []

/-- `a[(feed & 1) as usize] += n` -/
def bump (a : ℕ × ℕ) (feed : FeedId) (n : ℕ) : ℕ × ℕ :=
  if feed &&& 1 = 0 then (a.1 + n, a.2) else (a.1, a.2 + n)

inductive StepOutcome where
  | advanced
  | dupSkipped
  | cold
  deriving DecidableEq

namespace Scan

variable {ε : Type} (E : SpanEmit ε) (proof : LiveFeedProof)

/-- Deliver the buffer to the sink. -/
def flush (acc : Scan ε) : Scan ε :=
  { acc with em := (E.flush acc.em proof).1, calls := acc.calls ++ (E.flush acc.em proof).2 }

/-- Buffer a span; a full buffer is flushed. -/
def pushSpan (acc : Scan ε) (firstSeq count addr : ℕ) (body : List UInt8)
    (blocks : List Triple) : Scan ε :=
  let acc := { acc with em := E.push acc.em firstSeq count addr body blocks }
  if E.isFull acc.em then acc.flush E proof else acc

/-- The emission of one entry: buffered as a span, or a message for each block. -/
def emit (wantsSpans : Bool) (entry : FrameEntry) (acc : Scan ε) : Scan ε :=
  if wantsSpans then
    let body := slice entry.bytes (HEADER_LEN + 2) entry.bytes.length
    acc.pushSpan E proof entry.firstSeq entry.blocks.length (entry.addr + (HEADER_LEN + 2)) body
      entry.blocks
  else
    { acc with calls := acc.calls ++ (deliver proof (cut entry.bytes entry.blocks)).map .call }

/-- The deferred counters, committed at scan exit. -/
def commit (acc : Scan ε) (c : Counters) : Counters :=
  { c with
    feedA :=
      { packets := c.feedA.packets + acc.pk.1
        dups := c.feedA.dups + acc.dup.1
        bytes := c.feedA.bytes + acc.byt.1 }
    feedB :=
      { packets := c.feedB.packets + acc.pk.2
        dups := c.feedB.dups + acc.dup.2
        bytes := c.feedB.bytes + acc.byt.2 }
    dupMsgs := c.dupMsgs + acc.dupMsgs
    msgsEmitted := c.msgsEmitted + acc.emitted }

end Scan

section Steady

variable {ε : Type} (E : SpanEmit ε) (proof : LiveFeedProof) (wantsSpans : Bool)
  (sessLo sessHi : ℕ)

/-- The ladder of one entry: cold entries are left alone, a pure duplicate is counted, an
entry at the watermark is emitted. -/
def steadyStep (entry : FrameEntry) (acc : Scan ε) : StepOutcome × Scan ε :=
  let n := entry.blocks.length
  if n = 0 then (.cold, acc)
  else if entry.sessLo ≠ sessLo ∨ entry.sessHi ≠ sessHi then (.cold, acc)
  else
    let first := entry.firstSeq
    let last := wrappingSub (wrappingAdd first n) 1
    if last < acc.w then
      (.dupSkipped, { acc with
        pk := bump acc.pk entry.feed 1
        byt := bump acc.byt entry.feed entry.bytes.length
        dup := bump acc.dup entry.feed 1
        dupMsgs := acc.dupMsgs + n })
    else if first ≠ acc.w then (.cold, acc)
    else if entry.memo.any (fun m => m.validCount == n) = false then (.cold, acc)
    else
      let acc := { acc with
        pk := bump acc.pk entry.feed 1
        byt := bump acc.byt entry.feed entry.bytes.length }
      let acc := acc.emit E proof wantsSpans entry
      (.advanced, { acc with emitted := acc.emitted + n, w := wrappingAdd last 1 })

/-- The scan over a run of entries, up to the first cold one. -/
@[grind =]
def scanEntries : List FrameEntry → Scan ε → Scan ε × Option (FrameEntry × List FrameEntry)
  | [], acc => (acc, none)
  | entry :: entries, acc =>
      let r := steadyStep E proof wantsSpans sessLo sessHi entry acc
      match r.1 with
      | .cold => (r.2, some (entry, entries))
      | .advanced => scanEntries entries { r.2 with progressed := true }
      | .dupSkipped => scanEntries entries r.2

end Steady

/-- What a scan leaves: the watermark and counters to store, whether the watermark moved,
and the cold entry with those behind it. -/
structure ScanResult where
  w : ℕ
  counters : Counters
  progressed : Bool
  calls : List BatchCall
  cold : Option (FrameEntry × List FrameEntry)

/-- Flush the emissions and commit the counters at scan exit. -/
def Scan.finish {ε : Type} (E : SpanEmit ε) (proof : LiveFeedProof) (c : Counters)
    (r : Scan ε × Option (FrameEntry × List FrameEntry)) : ScanResult :=
  let acc := r.1.flush E proof
  ⟨acc.w, acc.commit c, acc.progressed, acc.calls, r.2⟩

namespace Sequencer

/-- The by-value steady scan. -/
def steadyScan (wantsSpans : Bool) (s : Sequencer) (entries : List FrameEntry) : ScanResult :=
  Scan.finish recEmitter ⟨s.gen⟩ s.counters
    (scanEntries recEmitter ⟨s.gen⟩ wantsSpans s.sessionLo s.sessionHi entries
      { w := s.w, em := recEmitter.new })

/-- The by-reference steady scan: the same ladder over a slice. -/
def steadyScanRef (wantsSpans : Bool) (s : Sequencer) (entries : List FrameEntry) : ScanResult :=
  Scan.finish recEmitter ⟨s.gen⟩ s.counters
    (scanEntries recEmitter ⟨s.gen⟩ wantsSpans s.sessionLo s.sessionHi entries
      { w := s.w, em := recEmitter.new })

/-- A cold entry takes the per-frame router. -/
def coldApply (s : Sequencer) (wantsSpans : Bool) (nowNs : ℕ) (entry : FrameEntry) : Emitting :=
  s.ingestAuto wantsSpans entry.bytes entry.feed nowNs entry.blocks entry.memo

/-- The state after a scan. -/
def absorb (s : Sequencer) (r : ScanResult) (nowNs : ℕ) : Sequencer :=
  { s with
    w := r.w
    counters := r.counters
    progressVt := if r.progressed then nowNs else s.progressVt }

/-- The loop of the batched drivers around their scan: a steady run, the cold entry that
ended it, and so on; every iteration but the last one consumes an entry. -/
@[grind =]
def scanLoop (scan : Sequencer → List FrameEntry → ScanResult) (wantsSpans : Bool) (nowNs : ℕ) :
    ℕ → Sequencer → List FrameEntry → Traced Sequencer BatchCall
  | 0, s, _ => (s, [])
  | fuel + 1, s, entries =>
      let cold (entry : FrameEntry) (rest : List FrameEntry) (s : Sequencer) :
          Traced Sequencer BatchCall :=
        let r := s.coldApply wantsSpans nowNs entry
        Traced.andThen (r.1, r.2.map .call) fun s => scanLoop scan wantsSpans nowNs fuel s rest
      if s.steadyReady then
        let r := scan s entries
        match r.cold with
        | some (entry, rest) => Traced.andThen (s.absorb r nowNs, r.calls) (cold entry rest)
        | none => (s.absorb r nowNs, r.calls)
      else
        match entries with
        | entry :: rest => cold entry rest s
        | [] => (s, [])

/-- Batch ingest over an iterator of entries. -/
def ingestBatch (s : Sequencer) (wantsSpans : Bool) (entries : List FrameEntry) (nowNs : ℕ) :
    Traced Sequencer BatchCall :=
  scanLoop (steadyScan wantsSpans) wantsSpans nowNs (entries.length + 1) s entries

/-- Batch ingest over a slice of entries. -/
def ingestEntries (s : Sequencer) (wantsSpans : Bool) (entries : List FrameEntry) (nowNs : ℕ) :
    Traced Sequencer BatchCall :=
  scanLoop (steadyScanRef wantsSpans) wantsSpans nowNs (entries.length + 1) s entries

/-! ## One entry in a steady state -/

theorem steadyReady_iff {s : Sequencer} :
    s.steadyReady = true ↔ s.sessionLive = true ∧ s.state = .contig ∧
      s.window.stagedCount = 0 ∧ s.gapActive = false ∧ s.pendingTo = none := by
  unfold steadyReady
  simp [and_assoc]

section Steady

variable {s : Sequencer} (hs : s.steadyReady = true) {frame : List UInt8} {hdr : Header}
  {blocks : List Triple} (hi : IndexOf frame hdr blocks)

include hs

/-- With nothing staged and no gap open the watermark moves and nothing else happens. -/
theorem advance_steady (last nowNs : ℕ) :
    s.advance last nowNs = ({ s with w := wrappingAdd last 1, progressVt := nowNs }, []) := by
  obtain ⟨-, -, h0, hgap, -⟩ := steadyReady_iff.mp hs
  simp [advance, h0, hgap, Traced.andThen]

include hi

theorem ingestData_duplicate (hlast : hdr.seq + (hdr.count - 1) < s.w) (feed : FeedId)
    (nowNs : ℕ) :
    s.ingestData frame hdr feed nowNs =
      (s.count fun c => c.recordDuplicate feed hdr.count, []) := by
  obtain ⟨-, hstate, -, -, -⟩ := steadyReady_iff.mp hs
  obtain ⟨-, -, -, hspan⟩ := hi.bounds
  unfold ingestData
  rw [hspan]
  dsimp only
  rw [if_neg (by rw [hstate]; decide), if_neg (by rw [hstate]; decide), if_pos hlast]

/-- A valid frame at the watermark is delivered whole. -/
theorem ingestData_contiguous (hw : hdr.seq = s.w)
    (hv : firstInvalid (headerBlocks frame hdr) = none) (feed : FeedId) (nowNs : ℕ) :
    s.ingestData frame hdr feed nowNs =
      ({ s with
          w := wrappingAdd (hdr.seq + (hdr.count - 1)) 1
          progressVt := nowNs
          counters := { s.counters with msgsEmitted := s.counters.msgsEmitted + blocks.length } },
        deliver ⟨s.gen⟩ (headerBlocks frame hdr)) := by
  obtain ⟨-, hstate, -, -, hpending⟩ := steadyReady_iff.mp hs
  obtain ⟨hpos, hlim, -, hspan⟩ := hi.bounds
  have hskip : min (wrappingSub s.w hdr.seq) hdr.count = 0 := by
    rw [hw, wrappingSub_of_le (Nat.le_refl _) (by rw [← hw]; omega), Nat.sub_self, Nat.zero_min]
  have hlen : (headerBlocks frame hdr).length = blocks.length := by
    rw [← hi.cut, Arbitrator.cut, List.length_map]
  have hwalk := s.applyContiguous_walk hi.parsed (hdr.seq + (hdr.count - 1)) nowNs
  dsimp only at hwalk
  rw [hskip, hi.walkError, List.drop_zero, hv, validPrefix_eq_self hv, hlen] at hwalk
  unfold ingestData
  rw [hspan]
  dsimp only
  rw [if_neg (by rw [hstate]; decide), if_neg (by rw [hstate]; decide), if_neg (by omega),
    applyFrame, if_pos hw.le, hwalk]
  have hadvance := fun c => advance_steady (show (s.count c).steadyReady = true from hs)
    (hdr.seq + (hdr.count - 1)) nowNs
  simp only [Option.map_none, hadvance, List.append_nil]
  simp only [retirePending, count, hpending, Nat.add_zero]

end Steady

/-- An entry of the live session goes straight to the data ladder. -/
theorem coldApply_matched {s : Sequencer} (hs : s.steadyReady = true) (ht : s.Template)
    {entry : FrameEntry} (he : entry.Published) (hb : entry.blocks ≠ [])
    (hlo : entry.sessLo = s.sessionLo) (hhi : entry.sessHi = s.sessionHi)
    (wantsSpans : Bool) (nowNs : ℕ) :
    ∃ hdr, IndexOf entry.bytes hdr entry.blocks ∧ entry.firstSeq = hdr.seq ∧
      Expands (s.coldApply wantsSpans nowNs entry)
        ((s.countPacket entry.bytes entry.feed).ingestData entry.bytes hdr entry.feed nowNs) := by
  obtain ⟨hdr, hi⟩ := he.indexed.resolve_left hb
  obtain ⟨hlive, hstate, -, -, -⟩ := steadyReady_iff.mp hs
  obtain ⟨hpos, -, heos, -⟩ := hi.bounds
  have hlen := (parseHeader_ok hi.parsed).1
  have hhdr : headerOf entry.bytes hlen = hdr :=
    Except.ok.inj ((parseHeader_headerOf hlen).symm.trans hi.parsed)
  have hfirst : entry.firstSeq = hdr.seq := by
    obtain ⟨b, hhead, hb⟩ := hi.head
    rw [he.first b hhead, hb]
  have hexpands := ingestAuto_expands ht he.indexed he.memoized wantsSpans entry.feed nowNs
  refine ⟨hdr, hi, hfirst, ?_⟩
  have hcount : (s.countPacket entry.bytes entry.feed).Template := ht
  have hmatch : (s.countPacket entry.bytes entry.feed).SessMatch entry.bytes := by
    obtain ⟨h₁, h₂⟩ := he.session hb
    exact ⟨hlive, by rw [← h₁, hlo]; rfl, by rw [← h₂, hhi]; rfl⟩
  have hingest : s.ingest entry.bytes entry.feed nowNs =
      (s.countPacket entry.bytes entry.feed).ingestData entry.bytes hdr entry.feed nowNs := by
    have hdispatch := hmatch.dispatch hcount hlen
    rw [hhdr] at hdispatch
    have hdead : (s.countPacket entry.bytes entry.feed).state ≠ .dead := by
      change s.state ≠ .dead
      rw [hstate]
      decide
    have hkind : ∀ t : Sequencer, t.ingestKind entry.bytes hdr entry.feed nowNs =
        t.ingestData entry.bytes hdr entry.feed nowNs := by
      intro t
      rw [ingestKind, if_neg (show ¬hdr.count = HEARTBEAT_COUNT from hpos.ne'), if_neg heos]
    unfold ingest
    dsimp only
    rw [if_neg (Nat.not_lt.mpr hlen), hi.parsed]
    dsimp only
    rw [if_neg hdead, hdispatch, Traced.andThen, hkind]
    exact Prod.ext rfl (List.nil_append _)
  rw [← hingest]
  exact hexpands

/-- The entries ingested one by one. -/
def ingestEach (wantsSpans : Bool) (nowNs : ℕ) (s : Sequencer) (entries : List FrameEntry) :
    Emitting :=
  Machine.run (fun s entry => s.coldApply wantsSpans nowNs entry) s entries

theorem ingestEach_standing (wantsSpans : Bool) (nowNs : ℕ) (s : Sequencer)
    (entries : List FrameEntry) : Standing s (ingestEach wantsSpans nowNs s entries).1 := by
  induction entries generalizing s with
  | nil => exact .of_identity rfl
  | cons entry entries ih => exact (ingestAuto_standing s _ _ _ _ _ _).trans (ih _)

end Sequencer

/-! ## What a scan has done so far -/

section Scan

variable {ε : Type} (E : SpanEmit ε) (mem : ℕ → UInt8)

/-- What a flush would deliver. -/
def SpanEmit.pending (em : ε) (proof : LiveFeedProof) : List SinkCall :=
  expandBatch mem (E.flush em proof).2

/-- An emitter buffers what is pushed and delivers it in order. `Fit` says that it can take
the coming entries from the watermark on. -/
structure SpanEmit.Lawful (Fit : ε → ℕ → List FrameEntry → Prop) : Prop where
  new : ∀ proof, E.pending mem E.new proof = []
  skip : ∀ em w e es, Fit em w (e :: es) → Fit em w es
  move : ∀ w w' e es, Fit E.new w (e :: es) → Fit E.new w' es
  push : ∀ em w e es hdr, Fit em w (e :: es) → IndexOf e.bytes hdr e.blocks → hdr.seq = w →
    let em' := E.push em w e.blocks.length (e.addr + (HEADER_LEN + 2))
      (slice e.bytes (HEADER_LEN + 2) e.bytes.length) e.blocks
    Fit em' (wrappingAdd w e.blocks.length) es ∧
      ∀ proof, E.pending mem em' proof =
        E.pending mem em proof ++ deliver proof (headerBlocks e.bytes hdr)
  flush : ∀ em w es proof, Fit em w es →
    Fit (E.flush em proof).1 w es ∧ E.pending mem (E.flush em proof).1 proof = []

/-- The state that the sequencer would be stored in if the scan stopped here. -/
def Scan.resume (acc : Scan ε) (s : Sequencer) (nowNs : ℕ) : Sequencer :=
  { s with
    w := acc.w
    counters := acc.commit s.counters
    progressVt := if acc.progressed then nowNs else s.progressVt }

/-- The calls made so far and those buffered. -/
def Scan.shown (acc : Scan ε) (proof : LiveFeedProof) : List SinkCall :=
  expandBatch mem acc.calls ++ E.pending mem acc.em proof

/-- The scan has done to the state and to the sink what `pre` would have done one by one. -/
structure Scan.Tracks (Fit : ε → ℕ → List FrameEntry → Prop) (wantsSpans : Bool) (nowNs : ℕ)
    (s : Sequencer) (pre rest : List FrameEntry) (acc : Scan ε) : Prop where
  state : (Sequencer.ingestEach wantsSpans nowNs s pre).1 = acc.resume s nowNs
  shown : acc.shown E mem ⟨s.gen⟩ = expand (Sequencer.ingestEach wantsSpans nowNs s pre).2
  fit : Fit acc.em acc.w rest
  idle : wantsSpans = false → acc.em = E.new

@[simp] theorem expandBatch_nil : expandBatch mem [] = [] := rfl

@[simp] theorem expandBatch_append (xs ys : List BatchCall) :
    expandBatch mem (xs ++ ys) = expandBatch mem xs ++ expandBatch mem ys := List.flatMap_append

@[simp] theorem expandBatch_call (calls : List SinkCall) :
    expandBatch mem (calls.map .call) = expand calls := by
  rw [expandBatch, List.flatMap_map]
  rfl

/-- The buffered records stand for their spans. -/
theorem recEmitter_pending (recs : List SpanRec) (proof : LiveFeedProof) :
    recEmitter.pending mem recs proof = expand (recs.map (SpanRec.span proof)) := by
  unfold SpanEmit.pending recEmitter
  dsimp only
  cases recs with
  | nil => rfl
  | cons r recs => exact List.append_nil _

theorem recEmitter_lawful : recEmitter.Lawful mem fun _ _ _ => True where
  new := fun _ => rfl
  skip := fun _ _ _ _ _ => trivial
  move := fun _ _ _ _ _ => trivial
  push := by
    intro recs w e es hdr _ hi hw
    refine ⟨trivial, fun proof => ?_⟩
    have hspan := hi.expand_span (show 0 < e.blocks.length by rw [hi.length]; exact hi.bounds.1) proof
    rw [List.drop_zero] at hspan
    have hspan' : Sequencer.spanOf proof e.bytes e.blocks hdr.seq 0 =
        SpanRec.span proof ⟨w, e.blocks.length,
          slice e.bytes (HEADER_LEN + 2) e.bytes.length, e.blocks⟩ := by
      unfold Sequencer.spanOf SpanRec.span
      dsimp only
      rw [hi.start, hi.stop, hw]
      rfl
    rw [recEmitter_pending, recEmitter_pending, ← hspan, hspan']
    change expand ((recs ++ [_]).map _) = _
    rw [List.map_append, expand_append]
    rfl
  flush := by
    intro recs w es proof _
    refine ⟨trivial, ?_⟩
    rw [recEmitter_pending]
    cases recs <;> rfl

/-! ## One step of the scan -/

theorem commit_packet (acc : Scan ε) (c : Counters) (feed : FeedId) (n : ℕ) :
    (acc.commit c).feedMut feed
        (fun fc => { fc with packets := fc.packets + 1, bytes := fc.bytes + n }) =
      ({ acc with pk := bump acc.pk feed 1, byt := bump acc.byt feed n } : Scan ε).commit c := by
  unfold Counters.feedMut bump Scan.commit
  split <;> simp only [Nat.add_assoc]

theorem commit_duplicate (acc : Scan ε) (c : Counters) (feed : FeedId) (n : ℕ) :
    (acc.commit c).recordDuplicate feed n =
      ({ acc with dup := bump acc.dup feed 1, dupMsgs := acc.dupMsgs + n } : Scan ε).commit c := by
  unfold Counters.recordDuplicate Counters.feedMut bump Scan.commit
  split <;> simp only [Nat.add_assoc]

theorem resume_packet (acc : Scan ε) (s : Sequencer) (nowNs : ℕ) (frame : List UInt8)
    (feed : FeedId) :
    (acc.resume s nowNs).countPacket frame feed =
      ({ acc with
          pk := bump acc.pk feed 1
          byt := bump acc.byt feed frame.length } : Scan ε).resume s nowNs := by
  unfold Sequencer.countPacket Sequencer.count Scan.resume
  dsimp only
  rw [commit_packet]

theorem resume_duplicate (acc : Scan ε) (s : Sequencer) (nowNs n : ℕ) (feed : FeedId) :
    (acc.resume s nowNs).count (fun c => c.recordDuplicate feed n) =
      ({ acc with
          dup := bump acc.dup feed 1
          dupMsgs := acc.dupMsgs + n } : Scan ε).resume s nowNs := by
  unfold Sequencer.count Scan.resume
  dsimp only
  rw [commit_duplicate]

section Tracks

variable {E mem} {Fit : ε → ℕ → List FrameEntry → Prop} (hE : E.Lawful mem Fit)
  {wantsSpans : Bool} {nowNs : ℕ} {s : Sequencer}

include hE

theorem flush_shown (acc : Scan ε) {w : ℕ} {rest : List FrameEntry} (proof : LiveFeedProof)
    (hfit : Fit acc.em w rest) :
    (acc.flush E proof).shown E mem proof = acc.shown E mem proof ∧
      Fit (acc.flush E proof).em w rest := by
  obtain ⟨h₁, h₂⟩ := hE.flush _ _ _ proof hfit
  refine ⟨?_, h₁⟩
  unfold Scan.shown Scan.flush
  dsimp only
  rw [h₂, List.append_nil, expandBatch_append]
  rfl

/-- The emission of an entry at the watermark adds its blocks to what is shown. -/
theorem emit_shown (acc : Scan ε) {e : FrameEntry} {es : List FrameEntry} {hdr : Header}
    (proof : LiveFeedProof) (hi : IndexOf e.bytes hdr e.blocks) (hfirst : e.firstSeq = hdr.seq)
    (hw : hdr.seq = acc.w) (hfit : Fit acc.em acc.w (e :: es))
    (hidle : wantsSpans = false → acc.em = E.new) :
    (acc.emit E proof wantsSpans e).shown E mem proof =
        acc.shown E mem proof ++ deliver proof (headerBlocks e.bytes hdr) ∧
      Fit (acc.emit E proof wantsSpans e).em (wrappingAdd acc.w e.blocks.length) es ∧
      (wantsSpans = false → (acc.emit E proof wantsSpans e).em = E.new) := by
  cases wantsSpans with
  | false =>
      have hem := hidle rfl
      refine ⟨?_, ?_, hidle⟩
      · unfold Scan.shown Scan.emit
        rw [if_neg Bool.false_ne_true, hem, hE.new, List.append_nil, List.append_nil,
          expandBatch_append, expandBatch_call, expand_deliver, hi.cut]
      · change Fit acc.em _ es
        rw [hem] at hfit ⊢
        exact hE.move _ _ _ _ hfit
  | true =>
      obtain ⟨hfit', hpending⟩ := hE.push _ _ _ _ hdr hfit hi hw
      rw [← hw, ← hfirst] at hfit' hpending
      refine ⟨?_, ?_, fun h => nomatch h⟩
      all_goals
        unfold Scan.emit Scan.pushSpan
        rw [if_pos rfl]
        dsimp only
      · have hshown : ∀ em', E.pending mem em' proof =
            E.pending mem acc.em proof ++ deliver proof (headerBlocks e.bytes hdr) →
            ({ acc with em := em' } : Scan ε).shown E mem proof =
              acc.shown E mem proof ++ deliver proof (headerBlocks e.bytes hdr) := by
          intro em' hem'
          unfold Scan.shown
          rw [hem', List.append_assoc]
        split
        · rw [(flush_shown hE { acc with em := _ } proof hfit').1]
          exact hshown _ (hpending proof)
        · exact hshown _ (hpending proof)
      · rw [← hw, ← hfirst]
        split
        · exact (flush_shown hE { acc with em := _ } proof hfit').2
        · exact hfit'

omit hE in
/-- An emission leaves the other locals alone. -/
theorem emit_eq (acc : Scan ε) (proof : LiveFeedProof) (e : FrameEntry) :
    ∃ em calls, acc.emit E proof wantsSpans e = { acc with em := em, calls := calls } := by
  unfold Scan.emit Scan.pushSpan
  split
  · dsimp only
    split
    · exact ⟨_, _, rfl⟩
    · exact ⟨_, _, rfl⟩
  · exact ⟨acc.em, _, rfl⟩

/-- The ladder of one entry does what the router does, or leaves the entry alone. -/
theorem steadyStep_tracks (hs : s.steadyReady = true) (ht : s.Template)
    {pre es : List FrameEntry} {e : FrameEntry} {acc : Scan ε}
    (h : acc.Tracks E mem Fit wantsSpans nowNs s pre (e :: es)) (he : e.Published) :
    let r := steadyStep E ⟨s.gen⟩ wantsSpans s.sessionLo s.sessionHi e acc
    (r.1 = .cold ∧ r.2 = acc) ∨
      (r.1 = .dupSkipped ∧ r.2.Tracks E mem Fit wantsSpans nowNs s (pre ++ [e]) es) ∨
      (r.1 = .advanced ∧
        ({ r.2 with progressed := true } : Scan ε).Tracks E mem Fit wantsSpans nowNs s
          (pre ++ [e]) es) := by
  dsimp only
  unfold steadyStep
  dsimp only
  by_cases hn : e.blocks.length = 0
  · rw [if_pos hn]
    exact .inl ⟨rfl, rfl⟩
  rw [if_neg hn]
  by_cases hsess : e.sessLo ≠ s.sessionLo ∨ e.sessHi ≠ s.sessionHi
  · rw [if_pos hsess]
    exact .inl ⟨rfl, rfl⟩
  rw [if_neg hsess]
  obtain ⟨hlo, hhi⟩ := not_or.mp hsess
  have hb : e.blocks ≠ [] := fun h0 => hn (by rw [h0]; rfl)
  obtain ⟨hdr, hi, hfirst, hstep⟩ := Sequencer.coldApply_matched
    (s := acc.resume s nowNs) hs ht he hb (not_not.mp hlo) (not_not.mp hhi) wantsSpans nowNs
  have hrun : ∀ r, Sequencer.Expands ((acc.resume s nowNs).coldApply wantsSpans nowNs e) r →
      (Sequencer.ingestEach wantsSpans nowNs s (pre ++ [e])).1 = r.1 ∧
        expand (Sequencer.ingestEach wantsSpans nowNs s (pre ++ [e])).2 =
          acc.shown E mem ⟨s.gen⟩ ++ r.2 := by
    intro r hr
    unfold Sequencer.ingestEach
    rw [Machine.run_snoc, Traced.andThen_fst, Traced.andThen_snd, expand_append]
    change ((Sequencer.ingestEach wantsSpans nowNs s pre).1.coldApply wantsSpans nowNs e).1 = _ ∧
      expand (Sequencer.ingestEach wantsSpans nowNs s pre).2 ++ expand
        ((Sequencer.ingestEach wantsSpans nowNs s pre).1.coldApply wantsSpans nowNs e).2 = _
    rw [h.state, hr.state, hr.calls, h.shown]
    exact ⟨rfl, rfl⟩
  obtain ⟨hpos, hlim, -, -⟩ := hi.bounds
  have hlast : wrappingSub (wrappingAdd e.firstSeq e.blocks.length) 1 =
      hdr.seq + (hdr.count - 1) := by
    rw [hfirst, hi.length, wrappingSub_last hpos hlim]
  rw [hlast]
  by_cases hdup : hdr.seq + (hdr.count - 1) < acc.w
  · rw [if_pos hdup]
    rw [Sequencer.ingestData_duplicate (s := (acc.resume s nowNs).countPacket e.bytes e.feed) hs hi
      hdup] at hstep
    obtain ⟨h₁, h₂⟩ := hrun _ hstep
    refine .inr (.inl ⟨rfl, ?_, ?_, hE.skip _ _ _ _ h.fit, h.idle⟩)
    · rw [h₁, resume_packet, resume_duplicate, hi.length]
    · rw [h₂, List.append_nil]
      rfl
  rw [if_neg hdup]
  by_cases hw : e.firstSeq ≠ acc.w
  · rw [if_pos hw]
    exact .inl ⟨rfl, rfl⟩
  rw [if_neg hw]
  by_cases hall : e.memo.any (fun m => m.validCount == e.blocks.length) = false
  · rw [if_pos hall]
    exact .inl ⟨rfl, rfl⟩
  rw [if_neg hall]
  have hseq : hdr.seq = acc.w := hfirst ▸ not_not.mp hw
  rw [Sequencer.ingestData_contiguous (s := (acc.resume s nowNs).countPacket e.bytes e.feed) hs hi
    hseq (hi.valid he.memoized (by simpa using hall) 0)] at hstep
  obtain ⟨h₁, h₂⟩ := hrun _ hstep
  generalize hacc : ({ acc with
      pk := bump acc.pk e.feed 1
      byt := bump acc.byt e.feed e.bytes.length } : Scan ε) = counted
  have hfit : Fit counted.em counted.w (e :: es) := by
    rw [← hacc]
    exact h.fit
  have hidle : wantsSpans = false → counted.em = E.new := by
    rw [← hacc]
    exact h.idle
  have hw : hdr.seq = counted.w := by
    rw [← hacc]
    exact hseq
  have hshown : counted.shown E mem ⟨s.gen⟩ = acc.shown E mem ⟨s.gen⟩ := by
    rw [← hacc]
    rfl
  obtain ⟨e₁, e₂, e₃⟩ := emit_shown hE counted ⟨s.gen⟩ hi hfirst hw hfit hidle
  refine .inr (.inr ⟨rfl, ?_, ?_, ?_, e₃⟩)
  · obtain ⟨em, calls, hemit⟩ : ∃ em calls, counted.emit E ⟨s.gen⟩ wantsSpans e =
        { counted with em := em, calls := calls } := emit_eq counted ⟨s.gen⟩ e
    rw [h₁, resume_packet, hacc, hemit]
    unfold Scan.resume Scan.commit
    dsimp only
    rw [Nat.add_assoc]
    rfl
  · rw [h₂, ← hshown]
    exact e₁
  · rw [wrappingAdd_last hpos, hw, ← hi.length]
    exact e₂

/-- The entries that a scan has not applied: the cold one and those behind it. -/
def unapplied : Option (FrameEntry × List FrameEntry) → List FrameEntry
  | none => []
  | some (entry, rest) => entry :: rest

/-- A scan applies a prefix of the entries. -/
theorem scanEntries_tracks (hs : s.steadyReady = true) (ht : s.Template)
    {pre entries : List FrameEntry} {acc : Scan ε}
    (h : acc.Tracks E mem Fit wantsSpans nowNs s pre entries)
    (hp : ∀ e ∈ entries, e.Published) :
    let r := scanEntries E ⟨s.gen⟩ wantsSpans s.sessionLo s.sessionHi entries acc
    ∃ mid, entries = mid ++ unapplied r.2 ∧
      r.1.Tracks E mem Fit wantsSpans nowNs s (pre ++ mid) (unapplied r.2) := by
  induction entries generalizing pre acc with
  | nil => exact ⟨[], rfl, by rwa [List.append_nil]⟩
  | cons e es ih =>
      have hes := fun x hx => hp x (List.mem_cons_of_mem e hx)
      dsimp only
      unfold scanEntries
      dsimp only
      rcases steadyStep_tracks hE hs ht h (hp e List.mem_cons_self) with
        ⟨hout, hsame⟩ | ⟨hout, hnext⟩ | ⟨hout, hnext⟩
      · rw [hout, hsame]
        exact ⟨[], rfl, by rwa [List.append_nil]⟩
      all_goals
        rw [hout]
        obtain ⟨mid, hmid, hlast⟩ := ih hnext hes
        refine ⟨e :: mid, congrArg (e :: ·) hmid, ?_⟩
        rw [List.append_assoc] at hlast
        exact hlast

end Tracks

end Scan

/-! ## The drivers -/

namespace Sequencer

/-- From a steady state the scan does what its entries would have done one by one, up to
the first one it leaves. -/
def Faithful (mem : ℕ → UInt8) (ok : List FrameEntry → Prop) (wantsSpans : Bool)
    (scan : Sequencer → List FrameEntry → ScanResult) : Prop :=
  ∀ (s : Sequencer) (entries : List FrameEntry) (nowNs : ℕ), s.steadyReady = true → s.Template →
    (∀ e ∈ entries, e.Published) → ok entries →
    ∃ pre, entries = pre ++ unapplied (scan s entries).cold ∧
      s.absorb (scan s entries) nowNs = (ingestEach wantsSpans nowNs s pre).1 ∧
      expandBatch mem (scan s entries).calls = expand (ingestEach wantsSpans nowNs s pre).2

/-- What a scan leaves, once its emissions are flushed and its counters committed. -/
theorem finish_faithful {ε : Type} {E : SpanEmit ε} {mem : ℕ → UInt8}
    {Fit : ε → ℕ → List FrameEntry → Prop} {wantsSpans : Bool}
    {nowNs : ℕ} {s : Sequencer} {pre : List FrameEntry}
    {r : Scan ε × Option (FrameEntry × List FrameEntry)}
    (h : r.1.Tracks E mem Fit wantsSpans nowNs s pre (unapplied r.2)) :
    s.absorb (Scan.finish E ⟨s.gen⟩ s.counters r) nowNs = (ingestEach wantsSpans nowNs s pre).1 ∧
      expandBatch mem (Scan.finish E ⟨s.gen⟩ s.counters r).calls =
        expand (ingestEach wantsSpans nowNs s pre).2 := by
  constructor
  · rw [h.state]
    rfl
  · rw [← h.shown]
    exact expandBatch_append mem _ _

/-- A scan over a lawful emitter is faithful. -/
theorem scanEntries_faithful {ε : Type} {E : SpanEmit ε} {mem : ℕ → UInt8}
    {Fit : ε → ℕ → List FrameEntry → Prop} (hE : E.Lawful mem Fit) (wantsSpans : Bool) :
    Faithful mem (fun entries => ∀ w, Fit E.new w entries) wantsSpans fun s entries =>
      Scan.finish E ⟨s.gen⟩ s.counters
        (scanEntries E ⟨s.gen⟩ wantsSpans s.sessionLo s.sessionHi entries
          { w := s.w, em := E.new }) := by
  intro s entries nowNs hs ht hp hfit
  have hstart : ({ w := s.w, em := E.new } : Scan ε).Tracks E mem Fit wantsSpans nowNs s []
      entries := ⟨rfl, hE.new _, hfit s.w, fun _ => rfl⟩
  obtain ⟨pre, hpre, htracks⟩ := scanEntries_tracks hE hs ht hstart hp
  exact ⟨pre, hpre, finish_faithful htracks⟩

/-- A faithful scan makes the driver do what the router does entry by entry. -/
theorem scanLoop_eq {mem : ℕ → UInt8} {ok : List FrameEntry → Prop} {wantsSpans : Bool}
    {scan : Sequencer → List FrameEntry → ScanResult} (h : Faithful mem ok wantsSpans scan)
    (hok : ∀ pre entries, ok (pre ++ entries) → ok entries) (nowNs : ℕ) {fuel : ℕ}
    {s : Sequencer} {entries : List FrameEntry} (hfuel : entries.length < fuel)
    (ht : s.Template) (hp : ∀ e ∈ entries, e.Published) (ho : ok entries) :
    (scanLoop scan wantsSpans nowNs fuel s entries).1 =
        (ingestEach wantsSpans nowNs s entries).1 ∧
      expandBatch mem (scanLoop scan wantsSpans nowNs fuel s entries).2 =
        expand (ingestEach wantsSpans nowNs s entries).2 := by
  induction fuel generalizing s entries with
  | zero => exact absurd hfuel (Nat.not_lt_zero _)
  | succ fuel ih =>
      have hcold : ∀ (t : Sequencer) (e : FrameEntry) (rest : List FrameEntry), t.Template →
          (∀ x ∈ rest, x.Published) → ok rest → rest.length < fuel →
          let r := t.coldApply wantsSpans nowNs e
          let r' := Traced.andThen (r.1, r.2.map BatchCall.call)
            fun t => scanLoop scan wantsSpans nowNs fuel t rest
          r'.1 = (ingestEach wantsSpans nowNs t (e :: rest)).1 ∧
            expandBatch mem r'.2 = expand (ingestEach wantsSpans nowNs t (e :: rest)).2 := by
        intro t e rest htt hpr hor hlen
        obtain ⟨h₁, h₂⟩ := ih hlen ((ingestAuto_standing t _ _ _ _ _ _).template htt) hpr hor
        refine ⟨h₁, ?_⟩
        rw [Traced.andThen_snd, expandBatch_append, expandBatch_call]
        exact (congrArg _ h₂).trans (expand_append _ _).symm
      unfold scanLoop
      dsimp only
      by_cases hs : s.steadyReady = true
      · rw [if_pos hs]
        obtain ⟨pre, hpre, hstate, hcalls⟩ := h s entries nowNs hs ht hp ho
        cases hc : (scan s entries).cold with
        | none =>
            rw [hc] at hpre
            obtain rfl : entries = pre := hpre.trans (List.append_nil pre)
            exact ⟨hstate, hcalls⟩
        | some c =>
            obtain ⟨e, rest⟩ := c
            rw [hc] at hpre
            have hlen : rest.length < fuel := by
              rw [hpre, List.length_append, unapplied, List.length_cons] at hfuel
              omega
            have hrest : ok rest := hok (pre ++ [e]) rest (by
              rw [List.append_assoc]
              exact hpre ▸ ho)
            have htt : (s.absorb (scan s entries) nowNs).Template := by
              rw [hstate]
              exact (ingestEach_standing wantsSpans nowNs s pre).template ht
            have hpr : ∀ x ∈ rest, x.Published := fun x hx => hp x (by
              rw [hpre]
              exact List.mem_append_right _ (List.mem_cons_of_mem _ hx))
            obtain ⟨h₁, h₂⟩ := hcold _ e rest htt hpr hrest hlen
            have hsplit : ingestEach wantsSpans nowNs s entries =
                (ingestEach wantsSpans nowNs s pre).andThen
                  fun t => ingestEach wantsSpans nowNs t (e :: rest) := by
              rw [hpre]
              exact Machine.run_append _ s pre (e :: rest)
            have hnext : (ingestEach wantsSpans nowNs (s.absorb (scan s entries) nowNs)
                (e :: rest)) = ingestEach wantsSpans nowNs (ingestEach wantsSpans nowNs s pre).1
                (e :: rest) := by rw [hstate]
            rw [hnext] at h₁ h₂
            rw [hsplit]
            refine ⟨h₁, (expandBatch_append mem _ _).trans ?_⟩
            exact (congrArg₂ _ hcalls h₂).trans (expand_append _ _).symm
      · rw [if_neg hs]
        cases entries with
        | nil => exact ⟨rfl, rfl⟩
        | cons e rest =>
            exact hcold s e rest ht (fun x hx => hp x (List.mem_cons_of_mem e hx))
              (hok [e] rest ho) (Nat.lt_of_succ_lt_succ hfuel)

/-- Both slice drivers do what the router does entry by entry. -/
theorem ingestBatch_eq (mem : ℕ → UInt8) {s : Sequencer} (ht : s.Template) (wantsSpans : Bool)
    {entries : List FrameEntry} (hp : ∀ e ∈ entries, e.Published) (nowNs : ℕ) :
    (s.ingestBatch wantsSpans entries nowNs).1 = (ingestEach wantsSpans nowNs s entries).1 ∧
      expandBatch mem (s.ingestBatch wantsSpans entries nowNs).2 =
        expand (ingestEach wantsSpans nowNs s entries).2 :=
  scanLoop_eq (scanEntries_faithful (recEmitter_lawful mem) wantsSpans)
    (fun _ _ _ _ => trivial) nowNs (Nat.lt_succ_self _) ht hp fun _ => trivial

theorem ingestEntries_eq (mem : ℕ → UInt8) {s : Sequencer} (ht : s.Template) (wantsSpans : Bool)
    {entries : List FrameEntry} (hp : ∀ e ∈ entries, e.Published) (nowNs : ℕ) :
    (s.ingestEntries wantsSpans entries nowNs).1 = (ingestEach wantsSpans nowNs s entries).1 ∧
      expandBatch mem (s.ingestEntries wantsSpans entries nowNs).2 =
        expand (ingestEach wantsSpans nowNs s entries).2 :=
  ingestBatch_eq mem ht wantsSpans hp nowNs

end Sequencer

end HftProj.Arbitrator
