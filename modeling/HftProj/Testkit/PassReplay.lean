import HftProj.Arbitrator.Calls

/-!
# The pass-replay ledger

The ledger keeps what one live pass showed to the sink, batch by batch, and issues it again
in later passes as long as the master's version, the bounds of the batch and the watermark
are those of the recording. A recorded slice points into the frozen master; here it is the
bytes or the triples it points to.
-/

namespace HftProj.Testkit

open HftProj.Lib HftProj.Protocol HftProj.Protocol.Moldudp64 HftProj.Arbitrator

def MAX_BATCHES : ℕ := 2048

def MAX_CALLS : ℕ := 16384

def MAX_WORDS : ℕ := 262144

def MAX_RECS : ℕ := 16384

/-- The staging depth of a replayed span batch. -/
def SPAN_STAGE : ℕ := 256

/-- What stops the process: a failed guard of the ledger, or an index out of range. -/
inductive Guard where
  | bounds
  | watermark
  | staging
  | index
  deriving DecidableEq

/-- One recorded sink call. Span batches and packed words lie in the ledger's own buffers. -/
inductive PassReplay.Call where
  | event (ev : Event)
  | msg (gen seq : ℕ) (msg : List UInt8)
  | span (gen first count : ℕ) (body : List UInt8) (blocks : List Triple)
  | spanBatch (gen recLo n : ℕ)
  | packed (gen first total base wLo n : ℕ)
  deriving DecidableEq

/-- The recorded verdict of one batch: its bounds and watermark, its calls, and what the
sequencer was left with. -/
structure BatchRec where
  rxStart : ℕ
  len : ℕ
  wIn : ℕ
  callLo : ℕ
  callHi : ℕ
  countersAfter : Counters
  wOut : ℕ
  vtOut : ℕ
  deriving DecidableEq

structure PassReplay where
  enabled : Bool
  poison : Bool
  version : ℕ
  batches : List BatchRec
  calls : List PassReplay.Call
  words : List ℕ
  recs : List SpanRec
  passBatchIdx : ℕ
  passLive : ℕ
  recording : Option BatchRec
  replayedBatches : ℕ
  liveBatches : ℕ
  replayedPasses : ℕ
  reRecords : ℕ
  passStartVersion : ℕ
  lastPassClean : Bool
  fusion : Bool
  fusedCalls : ℕ
  fusionBarrier : Bool

/-- What the ledger reads off the transport for the current batch. -/
structure BatchView where
  regime : Bool
  masterVersion : ℕ
  bounds : ℕ × ℕ
  deriving DecidableEq

namespace PassReplay

/-- `fusion` is the other arm that the environment sets. -/
def newForced (enabled fusion : Bool) : PassReplay where
  enabled := enabled
  poison := false
  version := 0
  batches := []
  calls := []
  words := []
  recs := []
  passBatchIdx := 0
  passLive := 0
  recording := none
  replayedBatches := 0
  liveBatches := 0
  replayedPasses := 0
  reRecords := 0
  passStartVersion := 0
  lastPassClean := false
  fusion := fusion
  fusedCalls := 0
  fusionBarrier := true

def beginPass (L : PassReplay) : PassReplay :=
  { L with
    passBatchIdx := 0
    passLive := 0
    recording := none
    passStartVersion := L.version
    fusionBarrier := true }

/-- The emptied template of `try_replay`, `seal_batch` and `poison_permanent`. -/
def clear (L : PassReplay) : PassReplay :=
  { L with batches := [], calls := [], words := [], recs := [] }

/-! ## Replaying -/

/-- Issue one recorded call again. -/
def replayCall (L : PassReplay) : Call → Except Guard BatchCall
  | .event ev => .ok (.call (.onEvent ev))
  | .msg gen seq msg => .ok (.call (.onMsg ⟨gen⟩ seq msg))
  | .span gen first count body blocks => .ok (.call (.onSpan ⟨gen⟩ first count body blocks))
  | .spanBatch gen recLo n =>
      if SPAN_STAGE < n then .error .staging
      else if L.recs.length < recLo + n then .error .index
      else .ok (.spanBatch ⟨gen⟩ (slice L.recs recLo (recLo + n)))
  | .packed gen first total base wLo n =>
      if L.words.length < wLo + n then .error .index
      else .ok (.spanBatchPacked ⟨gen⟩ first total base (slice L.words wLo (wLo + n)))

/-- The replay loop over the calls of a batch. -/
def replayCalls (L : PassReplay) (lo hi : ℕ) : Except Guard (List BatchCall) :=
  (List.range' lo (hi - lo)).mapM fun i =>
    match L.calls[i]? with
    | some call => L.replayCall call
    | none => .error .index

/-- Replay the batch that the cursor is at, unless it has to be scanned live. -/
def tryReplay (L : PassReplay) (t : BatchView) (seq : Sequencer) :
    Except Guard (PassReplay × Option (BatchRec × Sequencer × List BatchCall)) :=
  if L.enabled = false ∨ L.poison = true ∨ t.regime = false then .ok (L, none)
  else
    match L.batches[L.passBatchIdx]? with
    | none => .ok (L, none)
    | some rec =>
        -- the master write barrier: the template is dropped, the batch scanned live
        if t.masterVersion ≠ L.version then
          .ok ({ L.clear with version := t.masterVersion, reRecords := L.reRecords + 1 }, none)
        else if (rec.rxStart, rec.len) ≠ t.bounds then .error .bounds
        else if seq.w ≠ rec.wIn then .error .watermark
        else
          (L.replayCalls rec.callLo rec.callHi).map fun calls =>
            ({ L with
                passBatchIdx := L.passBatchIdx + 1
                replayedBatches := L.replayedBatches + 1 },
              some (rec, seq.replayApply rec.wOut rec.countersAfter rec.vtOut, calls))

/-! ## Recording -/

/-- Open the recording of a batch that is scanned live. -/
def beginRecord (L : PassReplay) (t : BatchView) (seq : Sequencer) : PassReplay :=
  if L.enabled = false ∨ L.poison = true then L
  else
    let L := { L with fusionBarrier := true }
    let L := if L.batches = [] then
        { L with version := t.masterVersion, calls := [], words := [], recs := [] }
      else L
    { L with
      recording := some
        { rxStart := t.bounds.1
          len := t.bounds.2
          wIn := seq.w
          callLo := L.calls.length
          callHi := L.calls.length
          countersAfter := {}
          wOut := seq.w
          vtOut := 0 } }

def pushCall (L : PassReplay) (call : Call) : PassReplay :=
  if L.recording.isNone ∨ L.poison = true then L
  else if MAX_CALLS ≤ L.calls.length then { L with poison := true }
  else { L with calls := L.calls ++ [call] }

/-- Absorb a packed call into the one before it: its words are moved to that one's base. The
first packed call of a batch is never absorbed. -/
def tryFusePacked (L : PassReplay) (gen first total base : ℕ) (words : List ℕ) :
    PassReplay × Bool :=
  if L.fusion = false ∨ MAX_WORDS < L.words.length + words.length then (L, false)
  else if L.fusionBarrier then ({ L with fusionBarrier := false }, false)
  else
    match L.calls.getLast? with
    | some (.packed pgen pfirst ptotal pbase pwLo pn) =>
        if pgen ≠ gen ∨ wrappingAdd pfirst ptotal ≠ first ∨ pwLo + pn ≠ L.words.length ∨
            base < pbase ∨ 2 ^ 32 - 1 < base - pbase then (L, false)
        else
          ({ L with
              words := L.words ++ words.map fun w => wrappingAdd w (base - pbase)
              calls := L.calls.dropLast ++
                [.packed pgen pfirst (ptotal + total) pbase pwLo (pn + words.length)]
              fusedCalls := L.fusedCalls + 1 },
            true)
    | _ => (L, false)

/-- The recording wrapper of the sink: what it appends for one call. -/
def tee (L : PassReplay) : BatchCall → PassReplay
  | .call (.onMsg proof seq msg) => L.pushCall (.msg proof.gen seq msg)
  | .call (.onEvent ev) => L.pushCall (.event ev)
  | .call (.onSpan proof firstSeq count body blocks) =>
      L.pushCall (.span proof.gen firstSeq count body blocks)
  | .spanBatch proof recs =>
      if L.recording.isSome ∧ L.poison = false then
        if MAX_RECS < L.recs.length + recs.length ∨ MAX_CALLS ≤ L.calls.length then
          { L with poison := true }
        else
          { L with recs := L.recs ++ recs }.pushCall
            (.spanBatch proof.gen L.recs.length recs.length)
      else L
  | .spanBatchPacked proof firstSeq total base words =>
      if L.recording.isSome ∧ L.poison = false then
        if MAX_WORDS < L.words.length + words.length ∨ MAX_CALLS ≤ L.calls.length then
          { L with poison := true }
        else
          let r := L.tryFusePacked proof.gen firstSeq total base words
          if r.2 then r.1
          else
            { r.1 with words := r.1.words ++ words }.pushCall
              (.packed proof.gen firstSeq total base r.1.words.length words.length)
      else L

/-- The record of the batch at the end of its scan. -/
def sealedRec (L : PassReplay) (seq : Sequencer) (rec : BatchRec) : BatchRec :=
  { rec with
    callHi := L.calls.length
    countersAfter := seq.counters
    wOut := seq.w
    vtOut := seq.progressVt }

/-- Close the recording; a template past its capacity is dropped for good. -/
def sealBatch (L : PassReplay) (seq : Sequencer) : PassReplay :=
  match L.recording with
  | none => L
  | some rec =>
      let made := L.sealedRec seq rec
      let L := { L with recording := none }
      if MAX_BATCHES ≤ L.batches.length ∨ MAX_CALLS < L.calls.length ∨
          MAX_WORDS < L.words.length ∨ MAX_RECS < L.recs.length then
        { L.clear with poison := true }
      else
        { L with
          batches :=
            if L.passBatchIdx < L.batches.length then L.batches.set L.passBatchIdx made
            else L.batches ++ [made]
          passBatchIdx := L.passBatchIdx + 1
          passLive := L.passLive + 1
          liveBatches := L.liveBatches + 1 }

def notePassEnd (L : PassReplay) : PassReplay :=
  { L with
    replayedPasses :=
      if 0 < L.passBatchIdx ∧ L.passLive = 0 then L.replayedPasses + 1 else L.replayedPasses
    lastPassClean := L.version == L.passStartVersion && !L.batches.isEmpty }

def poisonPermanent (L : PassReplay) : PassReplay :=
  { L.clear with poison := true, lastPassClean := false }

end PassReplay

/-! ## The pass loop -/

/-- What the transport publishes in each pass, and what the sink answers. Every pass has the
same batch bounds; the master's version only ever goes up. -/
structure Bench where
  batches : ℕ
  bounds : ℕ → ℕ × ℕ
  regime : Bool
  version : ℕ → ℕ → ℕ
  entries : ℕ → ℕ → List FrameEntry
  nowNs : ℕ → ℕ → ℕ
  wantsSpans : Bool
  wantsPackedSpans : Bool
  ladder : Option SoaLadder8
  version_batch : ∀ p i, version p i ≤ version p (i + 1)
  version_pass : ∀ p i, i < batches → version p i ≤ version (p + 1) 0

/-- One batch as it was served: with the record it was replayed from, or live, with the record
made of it and what a replay of that record would issue at once. -/
inductive Served where
  | replayed (pass batch version : ℕ) (rec : BatchRec) (calls : List BatchCall)
  | live (pass batch version : ℕ) (off : Bool)
      (made : Option (BatchRec × Except Guard (List BatchCall))) (calls : List BatchCall)

/-- The loop's own state, with every batch served so far. -/
structure Harness where
  ledger : PassReplay
  seq : Sequencer
  trace : List Served

namespace Bench

variable (b : Bench)

def view (p i : ℕ) : BatchView := ⟨b.regime, b.version p i, b.bounds i⟩

/-- The ledger neither replays nor will it again. -/
def off (L : PassReplay) : Bool := !L.enabled || L.poison || !b.regime

/-- The live scan of a batch through the recorder. -/
def scanLive (p i : ℕ) (L : PassReplay) (h : Harness) : Harness :=
  let recording := L.beginRecord (b.view p i) h.seq
  let r := h.seq.ingestEntriesLadder b.wantsSpans b.wantsPackedSpans (b.entries p i) (b.nowNs p i)
    b.ladder
  let teed := r.2.foldl PassReplay.tee recording
  let made := teed.recording.map fun rec =>
    (teed.sealedRec r.1 rec, teed.replayCalls rec.callLo teed.calls.length)
  { ledger := teed.sealBatch r.1
    seq := r.1
    trace := h.trace ++ [.live p i (b.version p i) (b.off L) made r.2] }

/-- One batch: replayed, or recorded while it is scanned. -/
def batchStep (p i : ℕ) (h : Harness) : Except Guard Harness :=
  (h.ledger.tryReplay (b.view p i) h.seq).map fun
    | (L, some (rec, seq, calls)) =>
        { ledger := L
          seq := seq
          trace := h.trace ++ [.replayed p i (b.version p i) rec calls] }
    | (L, none) => b.scanLive p i L h

/-- The first batches of a pass. -/
@[grind =]
def batchSteps (p : ℕ) (h : Harness) : ℕ → Except Guard Harness
  | 0 => .ok h
  | i + 1 => (batchSteps p h i).bind (b.batchStep p i)

/-- Every pass starts with a re-anchored sequencer. -/
def openPass (h : Harness) : Harness :=
  { h with ledger := h.ledger.beginPass, seq := h.seq.reanchor }

def passStep (p : ℕ) (h : Harness) : Except Guard Harness :=
  (b.batchSteps p (openPass h) b.batches).map fun h =>
    { h with ledger := h.ledger.notePassEnd }

@[grind =]
def run (ledger : PassReplay) : ℕ → Except Guard Harness
  | 0 => .ok ⟨ledger, Sequencer.new, []⟩
  | passes + 1 => (run ledger passes).bind (b.passStep passes)

end Bench

end HftProj.Testkit
