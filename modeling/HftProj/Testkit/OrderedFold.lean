import HftProj.Lib.Transition
import HftProj.Testkit.FoldJournal
import HftProj.Testkit.RxSubmit

/-!
# The ordered multi-lane fold

The workers of the lanes publish composite records for the chunks that are theirs, the
submitting core evaluates the chunks it has claimed inline, and the fold applies all of
them in span order, one pass after the other. One label is one publication, one call of the
harness, or one iteration of the fold's loop, which the core runs wherever it waits.
-/

namespace HftProj.Testkit.OrderedFold

open HftProj.Lib
open HftProj.Testkit.RxSubmit (chunk rxChunkCap)

def passRing : ℕ := 512

/-- What is submitted, and how the positions are shared out. Claims and records are made
under it, in any order. -/
structure Stream where
  nLanes : ℕ
  /-- The spans of each pass. -/
  passSpans : ℕ → ℕ
  value : ℕ → U64
  /-- The messages that a span carries. -/
  msgs : ℕ → ℕ
  /-- The chunks that the submitting core takes inline. -/
  claimed : ℕ → Bool
  assistSlots : ℕ

namespace Stream

variable (E : Stream)

/-- Where a pass starts. -/
def bound (i : ℕ) : ℕ := ((List.range i).map E.passSpans).sum

def values (lo hi : ℕ) : List U64 := (List.range' lo (hi - lo)).map E.value

def spanSeed : U64 := 0xcbf29ce484222325

/-- The tuple of a pass at a sink that folds its spans one after the other. -/
def sequential (i : ℕ) : ℕ × U64 :=
  (((List.range' (E.bound i) (E.passSpans i)).map E.msgs).sum,
    (E.values (E.bound i) (E.bound (i + 1))).foldl foldStep spanSeed)

/-- A position that a lane's worker evaluates. -/
def Own (lane p : ℕ) : Prop := (p / chunk) % E.nLanes = lane ∧ E.claimed (p / chunk) = false

/-- A record of some positions crosses neither a chunk end nor a pass boundary. -/
structure Fits (start k : ℕ) : Prop where
  pos : 0 < k
  inChunk : start % chunk + k ≤ chunk
  pass : ∀ i, ¬ (start < E.bound i ∧ E.bound i < start + k)

end Stream

/-- A result record as the fold reads it. -/
structure Res where
  spanId : BitVec 32
  aux : BitVec 32
  value : U64

/-- A lane's result ring: the records published so far and not consumed. -/
structure Lane where
  ring : List Res
  /-- The worker's cursor. -/
  next : ℕ
  /-- The positions and lengths that the records were made for. No step reads them. -/
  made : List (ℕ × ℕ)

structure InlineChunk where
  firstSpan : ℕ
  vals : List U64
  sealed : Bool

structure PassRec where
  endSpan : Option ℕ
  count : ℕ

inductive Ctl where
  | idle
  /-- The open waits for an inline slot for the rest of a claimed chunk. -/
  | straddle
  | finish
  deriving DecidableEq

structure Sink where
  hash : U64
  journal : FoldJournal
  count : ℕ
  nextSpan : ℕ
  foldPos : ℕ
  foldLane : ℕ
  foldRem : ℕ
  submitRem : ℕ
  /-- The inline chunks in flight, the oldest first: claims not folded yet. -/
  inlineRing : List InlineChunk
  /-- The newest claim takes values. -/
  curInline : Bool
  pendingLen : ℕ
  chunkState : ℕ → ℕ
  winOpen : Bool
  passOpen : Bool
  /-- The pass ring from its tail on: passes begun and not completed. -/
  passes : List PassRec
  /-- The pass ring before its tail: completed passes not harvested. -/
  completed : List (ℕ × U64)
  lanes : ℕ → Lane
  ctl : Ctl
  begun : ℕ
  harvested : List (ℕ × U64)
  /-- The spans folded, in order. No step reads it. -/
  folded : List ℕ

namespace Sink

def new (tree : Bool) (cap : ℕ) : Sink where
  hash := Stream.spanSeed
  journal := ⟨tree, cap, []⟩
  count := 0
  nextSpan := 0
  foldPos := 0
  foldLane := 0
  foldRem := chunk
  submitRem := chunk
  inlineRing := []
  curInline := false
  pendingLen := 0
  chunkState _ := 0
  winOpen := false
  passOpen := false
  passes := []
  completed := []
  lanes _ := ⟨[], 0, []⟩
  ctl := .idle
  begun := 0
  harvested := []
  folded := []

def isInline (s : Sink) (id : ℕ) : Bool := s.chunkState (id % rxChunkCap) == id + 1

def inlineCount (s : Sink) : ℕ := s.inlineRing.length

/-! ## Completion -/

@[grind =]
def completeFrom (s : Sink) : List PassRec → Sink
  | [] => { s with passes := [] }
  | p :: rest =>
      match p.endSpan with
      | none => { s with passes := p :: rest }
      | some e =>
          if e ≤ s.foldPos then
            let flushed := s.journal.flushUpto s.hash e
            completeFrom { s with
              completed := s.completed ++ [(p.count, flushed.1)],
              hash := Stream.spanSeed, journal := flushed.2 } rest
          else { s with passes := p :: rest }

/-- `complete_boundaries` without the dual split. -/
def completeBoundaries (s : Sink) : Sink := s.completeFrom s.passes

/-- The oldest pending pass's stamped end. -/
def pendingBoundaryEnd (s : Sink) : Option ℕ := s.passes.head?.bind PassRec.endSpan

/-- The lane and the chunk's rest behind a folded stretch. -/
def advanceFold (s : Sink) (nLanes k : ℕ) : Sink :=
  if s.foldRem - k = 0 then
    { s with
      foldPos := s.foldPos + k, foldRem := chunk,
      foldLane := if s.foldLane + 1 = nLanes then 0 else s.foldLane + 1 }
  else { s with foldPos := s.foldPos + k, foldRem := s.foldRem - k }

/-! ## The fold -/

/-- `fold_value`: one span, journaled as a leaf of its own or applied at once. -/
def foldValue (s : Sink) (v : U64) (stop : ℕ) : Sink :=
  if s.journal.tree then
    let r := s.journal.push s.hash 1 (foldTerm v) stop
    { s with hash := r.1, journal := r.2 }
  else { s with hash := foldStep s.hash v }

def foldValues (s : Sink) : List U64 → ℕ → Sink
  | [], _ => s
  | v :: vs, pos => (s.foldValue v (pos + 1)).foldValues vs (pos + 1)

/-- The oldest inline chunk is folded. -/
def foldInline (s : Sink) (nLanes : ℕ) (q : InlineChunk) : Option Sink :=
  if q.vals.length ≤ s.foldRem then
    let t := s.foldValues q.vals s.foldPos
    some ({ t with
      inlineRing := t.inlineRing.tail,
      folded := t.folded ++ List.range' q.firstSpan q.vals.length }.advanceFold nLanes
        q.vals.length).completeBoundaries
  else none

/-- A record is taken out of its lane's ring and journaled. -/
def takeRecord (s : Sink) (lane : ℕ) (r : Res) : Sink :=
  let k := r.aux.toNat
  let pushed := s.journal.push s.hash r.aux r.value (s.foldPos + k)
  let l := s.lanes lane
  { s with
    hash := pushed.1, journal := pushed.2,
    folded := s.folded ++ List.range' (l.made.headD (0, 0)).1 k,
    lanes := Function.update s.lanes lane { l with ring := l.ring.tail, made := l.made.tail } }

/-- The record ends beyond the submission frontier, in serial-number order. -/
def beyond (s : Sink) (r : Res) : Bool :=
  let dcap := r.spanId + r.aux - BitVec.ofNat 32 s.nextSpan
  decide (dcap ≠ 0 ∧ dcap.toNat < 2 ^ 31)

/-- The assertions on a record: its length, its place, and no pending boundary inside. -/
def accepts (s : Sink) (r : Res) : Bool :=
  decide (1 ≤ r.aux.toNat ∧ r.aux.toNat ≤ s.foldRem ∧ r.spanId = BitVec.ofNat 32 s.foldPos) &&
    match s.pendingBoundaryEnd with
    | none => true
    | some e => decide (s.foldPos + r.aux.toNat ≤ e)

/-- A boundary read ahead has been reached. -/
def reached (s : Sink) (nextEnd : Option ℕ) : Bool :=
  match nextEnd with
  | none => false
  | some e => decide (e ≤ s.foldPos)

/-- The record loop of one lane, over the records that were published when it was entered. The
boundary is read once and again after each completion. `none` is a failed assertion. -/
@[grind =]
def drainRecords (nLanes lane : ℕ) : Sink → Option ℕ → List Res → Option Sink
  | s, _, [] => some s
  | s, nextEnd, r :: rs =>
      if s.beyond r then some s
      else if s.accepts r then
        let t := (s.takeRecord lane r).advanceFold nLanes r.aux.toNat
        if s.foldRem - r.aux.toNat = 0 then some t
        else if t.reached nextEnd then
          drainRecords nLanes lane t.completeBoundaries t.completeBoundaries.pendingBoundaryEnd rs
        else drainRecords nLanes lane t nextEnd rs
      else none

/-- The fold inside a chunk of a lane, which the grid derives from the position. -/
def foldLanePart (s : Sink) (nLanes : ℕ) : Option Sink :=
  if s.isInline (s.foldPos / chunk) then some s
  else
    let lane := (s.foldPos / chunk) % nLanes
    let t := { s with foldLane := lane, foldRem := chunk - s.foldPos % chunk }
    if (s.lanes lane).ring = [] then some t
    else (drainRecords nLanes lane t t.pendingBoundaryEnd (s.lanes lane).ring).map
      completeBoundaries

/-- One iteration of `fold_available`: the oldest inline chunk if it is sealed and starts at
the cursor, else the records of the chunk's lane. -/
def foldOnce (s : Sink) (nLanes : ℕ) : Option Sink :=
  if s.foldPos < s.nextSpan then
    match s.inlineRing with
    | [] => s.foldLanePart nLanes
    | q :: _ =>
        if q.sealed ∧ q.firstSpan = s.foldPos then s.foldInline nLanes q
        else s.foldLanePart nLanes
  else some s

/-! ## Submission -/

def tryClaimInline (s : Sink) (assistSlots : ℕ) : Option Sink :=
  if s.inlineRing.length < assistSlots - 1 then
    some { s with
      inlineRing := s.inlineRing ++ [⟨s.nextSpan, [], false⟩], curInline := true }
  else none

def markInline (s : Sink) (id : ℕ) : Sink :=
  { s with chunkState := Function.update s.chunkState (id % rxChunkCap) (id + 1) }

/-- The newest inline chunk is changed. -/
@[grind =]
def onNewest (f : InlineChunk → InlineChunk) : List InlineChunk → List InlineChunk
  | [] => []
  | [q] => [f q]
  | q :: qs => q :: onNewest f qs

/-- `flush_pending`: the claim under way is sealed if it holds a span. -/
def flushPending (s : Sink) : Sink :=
  if s.pendingLen = 0 then s
  else if s.curInline then
    { s with
      inlineRing := onNewest (fun q => { q with sealed := true }) s.inlineRing,
      curInline := false, pendingLen := 0 }
  else { s with pendingLen := 0 }

/-- The value of a span of a claimed chunk is buffered. -/
def submitInlineSpan (s : Sink) (v : U64) : Sink :=
  { s with
    inlineRing := onNewest (fun q => { q with vals := q.vals.take s.pendingLen ++ [v] })
      s.inlineRing,
    pendingLen := s.pendingLen + 1 }

/-- The rest of a span's submission, behind the chunk-open decision. -/
def submitSpan (s : Sink) (v : U64) (msgs : ℕ) : Sink :=
  let s := if s.curInline then s.submitInlineSpan v else s
  let s := { s with
    nextSpan := s.nextSpan + 1, count := s.count + msgs, submitRem := s.submitRem - 1 }
  if s.submitRem = 0 then
    let s := { s with submitRem := chunk }
    if s.curInline then s.flushPending else s
  else s

/-- The open of a window: the rest of a claimed chunk has to be claimed again. -/
def openWindow (s : Sink) : Sink :=
  { s with
    winOpen := true,
    ctl := if s.submitRem ≠ chunk ∧ s.isInline (s.nextSpan / chunk) then .straddle else .idle }

/-- A pass begins, under the assertion that the pass ring has a free slot. -/
def beginPass (s : Sink) : Option Sink :=
  if s.passOpen then none
  else if s.completed.length + s.passes.length + 1 = passRing then none
  else
    let s := { s with
      count := 0, passes := s.passes ++ [⟨none, 0⟩], passOpen := true, begun := s.begun + 1 }
    some (if s.winOpen then s else s.openWindow)

/-- The newest pass record is stamped. -/
@[grind =]
def stampPass (s : Sink) : List PassRec → List PassRec
  | [] => []
  | [_] => [⟨some s.nextSpan, s.count⟩]
  | p :: ps => p :: stampPass s ps

def endPass (s : Sink) : Option Sink :=
  if s.passOpen then
    let s := s.flushPending
    some ({ s with
      passes := s.stampPass s.passes, passOpen := false, winOpen := false }).completeBoundaries
  else none

def harvestCompleted (s : Sink) : Sink :=
  { s with harvested := s.harvested ++ s.completed, completed := [] }

end Sink

/-! ## Steps -/

inductive Label where
  | publish (lane start k : ℕ)
  | beginPass
  | span
  | claimRest
  | drain
  | endPass
  | harvest
  | finish
  | finished

variable (E : Stream)

/-- The record that a lane's worker makes for some positions. -/
def Stream.record (start k : ℕ) : Res :=
  ⟨BitVec.ofNat 32 start, BitVec.ofNat 32 k,
    foldComposeB ((E.values start (start + k)).map foldTerm)⟩

/-- A worker's next record starts at the lane's next own position. -/
structure Publishes (s : Sink) (lane start k : ℕ) : Prop where
  inRange : lane < E.nLanes
  own : E.Own lane start
  fits : E.Fits start k
  behind : (s.lanes lane).next ≤ start
  first : ∀ p, (s.lanes lane).next ≤ p → p < start → ¬ E.Own lane p
  lag : start + k < s.foldPos + 2 ^ 31

/-- The submission of a span of the open pass. A claimed chunk is claimed at its first span. -/
def span (s : Sink) : Option Sink :=
  if s.ctl = .idle ∧ s.passOpen ∧ s.nextSpan < E.bound s.begun ∧
      s.nextSpan + 1 < s.foldPos + 2 ^ 31 then
    let v := E.value s.nextSpan
    let m := E.msgs s.nextSpan
    let id := s.nextSpan / chunk
    if s.submitRem = chunk ∧ E.claimed id then
      (s.tryClaimInline E.assistSlots).map fun s => (s.markInline id).submitSpan v m
    else some (s.submitSpan v m)
  else none

inductive Step : Sink → Label → Sink → Prop
  | publish {s lane start k} (h : Publishes E s lane start k) :
      Step s (.publish lane start k) { s with
        lanes := Function.update s.lanes lane
          ⟨(s.lanes lane).ring ++ [E.record start k], start + k,
            (s.lanes lane).made ++ [(start, k)]⟩ }
  | beginPass {s s'} (hidle : s.ctl = .idle) (h : s.beginPass = some s') : Step s .beginPass s'
  | span {s s'} (h : span E s = some s') : Step s .span s'
  | claimRest {s s'} (hctl : s.ctl = .straddle) (h : s.tryClaimInline E.assistSlots = some s') :
      Step s .claimRest { s' with ctl := .idle }
  | drain {s s'} (h : s.completeBoundaries.foldOnce E.nLanes = some s') : Step s .drain s'
  | endPass {s s'} (hidle : s.ctl = .idle) (hall : s.nextSpan = E.bound s.begun)
      (h : s.endPass = some s') : Step s .endPass s'
  | harvest {s} (hidle : s.ctl = .idle) : Step s .harvest s.harvestCompleted
  | finish {s} (hidle : s.ctl = .idle) (hpass : s.passOpen = false) :
      Step s .finish { s.flushPending with winOpen := false, ctl := .finish }
  | finished {s} (hctl : s.ctl = .finish) (hall : s.nextSpan ≤ s.foldPos) :
      Step s .finished
        (let t := s.completeBoundaries
         let r := t.journal.flushAll t.hash
         { t with hash := r.1, journal := r.2, ctl := .idle })

/-- The states of the runs whose steps all meet a condition. -/
inductive Reached (ok : Sink → Label → Prop) : Sink → Prop
  | new (tree : Bool) (cap : ℕ) : Reached ok (Sink.new tree cap)
  | step {s l s'} (h : Reached ok s) (hok : ok s l) (hstep : Step E s l s') : Reached ok s'

/-- No pass begins while a claim of the one before is open. -/
def Clear (s : Sink) (l : Label) : Prop := l = .beginPass → s.curInline = false

end HftProj.Testkit.OrderedFold
