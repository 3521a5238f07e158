import HftProj.Lib.Transition
import Mathlib.Algebra.Group.Nat.Defs
import Mathlib.Logic.Function.Basic
import Mathlib.Order.Lattice

/-!
# Submission through the descriptor arrays

The span sink in rxdesc mode, without the dual split: windows are opened on rows of
descriptor words, every submitted span is checked against its word and fixed where it
differs, and the ready cursor exposes the spans to the workers. One label is one step of
the submitting core, one call of its harness, or progress of the ordered fold.
-/

namespace HftProj.Testkit.RxSubmit

def rxNarr : ℕ := 8
def recRing : ℕ := 128
def chunk : ℕ := 512
def rxPace : ℕ := 8192
def rxChunkCap : ℕ := 2 ^ 15
def rxAffineFlag : ℕ := 2 ^ 48
def rxPackedLow48 : ℕ := 2 ^ 48 - 1

/-- What the environment and the harness switch on. -/
structure Config where
  toroidal : Bool
  selfserve : Bool
  warmEpoch : Bool
  batchSubmit : Bool
  forceInline : Bool
  affine : Bool
  assistWm : ℕ
  assistSlots : ℕ

/-- A window record of the current generation. -/
structure Record where
  base : ℕ
  passStart : Bool
  arrSlot : ℕ
  deriving DecidableEq

/-- The state shared with the workers. A record slot holds `none` while the word in it is of
an older generation, and `lastSlot` is `none` for `u8::MAX`. -/
structure RxdescState where
  arrays : ℕ → ℕ → ℕ
  cap : ℕ
  records : ℕ → Option Record
  ready : ℕ
  lastSlot : Option ℕ
  lastWindowCount : ℕ
  chunkState : ℕ → ℕ

namespace RxdescState

def nextSlot (st : RxdescState) : ℕ :=
  match st.lastSlot with
  | none => 0
  | some last => (last + 1) % recRing

def setArr (st : RxdescState) (slot idx w : ℕ) : RxdescState :=
  { st with arrays := Function.update st.arrays slot (Function.update (st.arrays slot) idx w) }

/-- The record word is packed under two assertions, the base below `2^44` and the row below
`RX_NARR`. -/
def publishRecord (st : RxdescState) (slot : ℕ) (r : Record) : Option RxdescState :=
  if r.base < 2 ^ 44 ∧ r.arrSlot < rxNarr then
    some { st with records := Function.update st.records slot (some r), lastSlot := some slot }
  else none

def markInline (st : RxdescState) (chunkId : ℕ) : RxdescState :=
  { st with chunkState := Function.update st.chunkState (chunkId % rxChunkCap) (chunkId + 1) }

def isInline (st : RxdescState) (chunkId : ℕ) : Bool :=
  st.chunkState (chunkId % rxChunkCap) == chunkId + 1

def clearChunkStates (st : RxdescState) : RxdescState :=
  { st with chunkState := fun _ => 0 }

end RxdescState

/-- A window as it was opened. -/
structure Opened where
  base : ℕ
  arrSlot : ℕ
  recSlot : ℕ
  passStart : Bool
  deriving DecidableEq

def Opened.record (w : Opened) : Record := ⟨w.base, w.passStart, w.arrSlot⟩

/-- What has happened so far. No step reads it. -/
structure Log where
  /-- The windows, the newest first. -/
  opens : List Opened
  /-- The check-and-fix words of the emitted spans, by span id. -/
  spans : List ℕ
  /-- The furthest ready store. -/
  exposed : ℕ
  /-- The furthest end that a self-serve open published ahead of its spans. -/
  promised : ℕ

/-- The newest window that starts at or before a span. -/
def Log.owner (l : Log) (gid : ℕ) : Option Opened := l.opens.find? (·.base ≤ gid)

structure Sink where
  st : RxdescState
  nextSpan : ℕ
  foldPos : ℕ
  passStartSpan : Option ℕ
  passOpen : Bool
  submitRem : ℕ
  curInline : Option ℕ
  pendingLen : ℕ
  inlineSeq : ℕ
  inlineFoldSeq : ℕ
  winOpen : Bool
  everOpened : Bool
  marksCleared : Bool
  torWin : Bool
  winSs : Bool
  winSlot : ℕ
  winRec : ℕ
  winBase : ℕ
  winCount0 : ℕ
  winFix0 : ℕ
  winPre : ℕ
  fixes : ℕ
  steadyEpoch : ℕ
  slotEpoch : ℕ → ℕ
  slotCount : ℕ → Option ℕ
  slotEnd : ℕ → Option ℕ
  recEnd : ℕ → Option ℕ
  log : Log

/-- One packed call: the translation of its offsets to the blob, and its words. -/
structure PackedBatch where
  delta : ℕ
  words : List ℕ

/-- A run of one batch within one chunk, while it is checked group by group. An inline commit
keeps the cursor at the run's start, so the words before the group are counted in `off`. -/
structure Commit where
  delta : ℕ
  words : List ℕ
  off : ℕ
  width : ℕ
  /-- The lanes of the group still to be fixed: the index in the row and the word it takes. -/
  bad : List (ℕ × ℕ)
  rest : List ℕ

/-- Where the submitting core is. An open is followed by the batch that caused it, if one did. -/
inductive Ctl where
  | idle
  | reuse (recSlot arrSlot : ℕ) (k : Option PackedBatch)
  | warm (recSlot arrSlot copied : ℕ) (k : Option PackedBatch)
  | watermark (tor : Bool) (recSlot arrSlot : ℕ) (k : Option PackedBatch)
  | straddle (k : Option PackedBatch)
  | pace (b : PackedBatch)
  | batch (b : PackedBatch)
  | claim (b : PackedBatch)
  | fix (r : Commit)
  | drain

abbrev Joint := Sink × Ctl

variable (c : Config)

/-! ## Cursors -/

namespace Sink

def pending (s : Sink) : ℕ := s.nextSpan - s.foldPos

/-- `flush_pending`: an inline chunk is sealed once it holds a span. -/
def flushPending (s : Sink) : Sink :=
  if s.pendingLen = 0 then s else { s with curInline := none, pendingLen := 0 }

def setReady (s : Sink) (v : ℕ) : Sink :=
  { s with st := { s.st with ready := v }, log := { s.log with exposed := max s.log.exposed v } }

/-- What `rx_publish_ready` stores: a self-serve window's frontier never moves back. -/
def frontier (s : Sink) : ℕ := if s.winSs then max s.nextSpan s.winPre else s.nextSpan

/-- The ready word is packed under the assertion that the cursor fits 48 bits. -/
def publishReady (s : Sink) : Option Sink :=
  if s.frontier < 2 ^ 48 then some (s.setReady s.frontier) else none

def tryClaimInline (s : Sink) : Option Sink :=
  if s.inlineSeq - s.inlineFoldSeq < c.assistSlots - 1 then
    some { s with inlineSeq := s.inlineSeq + 1, curInline := some (s.inlineSeq % c.assistSlots) }
  else none

/-- What a toroidal fix at an index waits for: the fold past the previous window's span there. -/
def need (s : Sink) (idx : ℕ) : ℕ := s.winBase - s.winCount0 + idx + 1

def setFixed (s : Sink) (idx w : ℕ) : Sink :=
  { s with st := s.st.setArr s.winSlot idx w, fixes := s.fixes + 1 }

/-- The spans of some words are emitted. -/
def emit (s : Sink) (spans : List ℕ) : Sink :=
  { s with nextSpan := s.nextSpan + spans.length,
           log := { s.log with spans := s.log.spans ++ spans } }

/-- The chunk tracker after some spans of a self-serve window. -/
@[grind =]
def skipRem : ℕ → ℕ → ℕ
  | rem, 0 => rem
  | rem, n + 1 => skipRem (if rem = 1 then chunk else rem - 1) n

end Sink

/-- The array word of a packed span word. -/
def expect (delta w : ℕ) : ℕ :=
  (((w &&& rxPackedLow48) + delta) % 2 ^ 64) ||| (if c.affine then rxAffineFlag else 0)

/-! ## Opening a window -/

/-- The generation's first open clears the inline marks of the one before. -/
def Sink.activate (s : Sink) : Sink :=
  if s.marksCleared then s else { s with st := s.st.clearChunkStates, marksCleared := true }

/-- `rx_open_window` up to its first gate. -/
def openWindow (s : Sink) (k : Option PackedBatch) : Joint :=
  let tor := c.toroidal && s.everOpened && decide (1 ≤ s.steadyEpoch)
  let recSlot := s.st.nextSlot
  let arrSlot := if tor then s.winSlot
    else if s.everOpened then (s.winSlot + 1) % rxNarr
    else recSlot
  (s.activate, if tor then .watermark true recSlot arrSlot k else .reuse recSlot arrSlot k)

/-- A gate lets through once the fold has passed the stamped end. -/
def passed (s : Sink) : Option ℕ → Bool
  | none => true
  | some e => decide (e ≤ s.foldPos)

/-- The reuse gate of a rotating open, then the decision on the warm copy. -/
def reuseStep (s : Sink) (recSlot arrSlot : ℕ) (k : Option PackedBatch) : Option Joint :=
  if arrSlot < rxNarr ∧ passed s (s.slotEnd arrSlot) then
    let warmSkip := c.warmEpoch && decide (1 ≤ s.slotEpoch arrSlot)
      && decide (s.slotCount arrSlot = some s.st.lastWindowCount)
    some (s, if warmSkip then .watermark false recSlot arrSlot k else .warm recSlot arrSlot 0 k)
  else none

/-- One word of the warm copy from the previous window's row. -/
def warmStep (s : Sink) (recSlot arrSlot copied : ℕ) (k : Option PackedBatch) : Joint :=
  if copied < s.st.lastWindowCount then
    let prev := if s.everOpened then s.winSlot else (arrSlot + rxNarr - 1) % rxNarr
    ({ s with st := s.st.setArr arrSlot copied (s.st.arrays prev copied) },
      .warm recSlot arrSlot (copied + 1) k)
  else (s, .watermark false recSlot arrSlot k)

/-- What the core does after an open. -/
def afterOpen : Option PackedBatch → Ctl
  | none => .idle
  | some b => .pace b

/-- The window that an open publishes. -/
def Sink.opening (s : Sink) (recSlot arrSlot : ℕ) : Opened :=
  ⟨s.nextSpan, arrSlot, recSlot, s.passStartSpan = some s.nextSpan⟩

/-- The bookkeeping of the open, behind the record's publication. -/
def Sink.enter (s : Sink) (st : RxdescState) (tor : Bool) (w : Opened) : Sink :=
  { s with
    st := st, winSlot := w.arrSlot, winRec := w.recSlot, winBase := w.base, winOpen := true,
    everOpened := true, torWin := tor, winFix0 := s.fixes, winCount0 := st.lastWindowCount,
    log := { s.log with opens := w :: s.log.opens } }

/-- The self-serve decision: the whole expected window is exposed at once. -/
def selfServe (s : Sink) (tor : Bool) : Option Sink :=
  let straddleInline := decide (s.submitRem ≠ chunk) && s.st.isInline (s.nextSpan / chunk)
  let ss := c.selfserve && c.batchSubmit && tor && decide (2 ≤ s.steadyEpoch)
    && decide (0 < s.winCount0) && !straddleInline && !c.forceInline
  let v := s.nextSpan + s.winCount0
  if ss then
    if v < 2 ^ 48 then
      some { s.setReady v with
        winSs := true, winPre := v,
        log := { (s.setReady v).log with promised := max s.log.promised v } }
    else none
  else some { s with winSs := false, winPre := 0 }

/-- The record ring's watermark, then the publication of the record. -/
def watermarkStep (s : Sink) (tor : Bool) (recSlot arrSlot : ℕ) (k : Option PackedBatch) :
    Option Joint :=
  if passed s (s.recEnd recSlot) then do
    let w := s.opening recSlot arrSlot
    let st ← s.st.publishRecord recSlot w.record
    let s ← selfServe c (s.enter st tor w) tor
    some (s, if s.submitRem ≠ chunk ∧ s.st.isInline (s.nextSpan / chunk) then .straddle k
      else afterOpen k)
  else none

def straddleStep (s : Sink) (k : Option PackedBatch) : Option Joint :=
  (s.tryClaimInline c).map (·, afterOpen k)

/-! ## Submitting a packed batch -/

/-- The flow control, then the batch of a self-serve window, which only moves the cursors. -/
def paceStep (s : Sink) (b : PackedBatch) : Option Joint :=
  if 0 < c.assistWm ∧ rxPace < s.pending then none
  else if s.winSs ∧ s.curInline = none then
    some ({ s.emit (b.words.map (expect c b.delta)) with
      submitRem := Sink.skipRem s.submitRem b.words.length }, .idle)
  else some (s, .batch b)

def groupWidth (inline : Bool) (left : ℕ) : ℕ :=
  if !inline ∧ 16 ≤ left then 16 else if 8 ≤ left then 8 else 1

/-- The lanes of a group whose word differs from the row's. -/
def divergent (s : Sink) (slot idx delta : ℕ) (group : List ℕ) : List (ℕ × ℕ) :=
  (group.zipIdx idx).filterMap fun p =>
    if s.st.arrays slot p.2 = expect c delta p.1 then none else some (p.2, expect c delta p.1)

/-- Check the next group of the run against the row. -/
def openGroup (s : Sink) (r : Commit) : Option Joint :=
  let idx := s.nextSpan - s.winBase + r.off
  let width := groupWidth s.curInline.isSome (r.words.length - r.off)
  if idx + width ≤ s.st.cap ∧ (width = 1 ∨ r.delta < 2 ^ 32) then
    some (s, .fix { r with
      width := width,
      bad := divergent c s s.winSlot idx r.delta ((r.words.drop r.off).take width) })
  else none

/-- The run that the next step submits: up to the end of the chunk or of the batch. -/
def openRun (s : Sink) (b : PackedBatch) : Option Joint :=
  openGroup c s ⟨b.delta, b.words.take s.submitRem, 0, 0, [], b.words.drop s.submitRem⟩

/-- The chunk-open decision of the batch loop. -/
def batchStep (s : Sink) (b : PackedBatch) : Option Joint :=
  if b.words = [] then some (s, .idle)
  else if s.submitRem = chunk then
    if c.forceInline then some (s, .claim b)
    else if !s.winSs ∧ 0 < c.assistWm ∧ c.assistWm < s.pending then
      match s.tryClaimInline c with
      | some s' => openRun c { s' with st := s'.st.markInline (s'.nextSpan / chunk) } b
      | none => openRun c s b
    else openRun c s b
  else openRun c s b

/-- The forced claim spins until an inline slot is free. -/
def claimStep (s : Sink) (b : PackedBatch) : Option Joint :=
  (s.tryClaimInline c).bind fun s' =>
    openRun c { s' with st := s'.st.markInline (s'.nextSpan / chunk) } b

/-- The chunk's completion is what publishes the cursor. -/
def runEnd (s : Sink) (b : PackedBatch) : Option Joint :=
  if s.submitRem = 0 then
    (Sink.flushPending { s with submitRem := chunk }).publishReady.map (·, .batch b)
  else some (s, .batch b)

/-- The group's lanes are fixed in ascending order, each behind the guard; then the cursor
moves, after every group or, in an inline commit, after the whole run. -/
def fixStep (s : Sink) (r : Commit) : Option Joint :=
  match r.bad with
  | (idx, w) :: bad =>
      if s.torWin ∧ s.foldPos < s.need idx then none
      else some (s.setFixed idx w, .fix { r with bad := bad })
  | [] =>
      if s.curInline.isSome then
        if r.off + r.width < r.words.length then openGroup c s { r with off := r.off + r.width }
        else
          let n := r.words.length
          runEnd { s.emit (r.words.map (expect c r.delta)) with
            submitRem := s.submitRem - n, pendingLen := s.pendingLen + n } ⟨r.delta, r.rest⟩
      else
        let s := { s.emit ((r.words.take r.width).map (expect c r.delta)) with
          submitRem := s.submitRem - r.width }
        if r.width < r.words.length then openGroup c s { r with words := r.words.drop r.width }
        else runEnd s ⟨r.delta, r.rest⟩

/-! ## The harness's calls -/

/-- The close of a window, with the epochs of the regime and of the row. -/
def closeWindow (s : Sink) : Sink :=
  if s.winOpen then
    let count := s.nextSpan - s.winBase
    let clean := s.fixes = s.winFix0 ∧ count = s.winCount0
    let slotClean := s.fixes = s.winFix0 ∧ s.slotCount s.winSlot = some count
    { s with
      slotEnd := Function.update s.slotEnd s.winSlot (some s.nextSpan),
      recEnd := Function.update s.recEnd s.winRec (some s.nextSpan),
      st := { s.st with lastWindowCount := min count s.st.cap },
      steadyEpoch := if clean then min (s.steadyEpoch + 1) (2 ^ 32 - 1) else 0,
      slotEpoch := Function.update s.slotEpoch s.winSlot
        (if slotClean then min (s.slotEpoch s.winSlot + 1) (2 ^ 32 - 1) else 0),
      slotCount := Function.update s.slotCount s.winSlot (some count),
      winOpen := false }
  else s

/-- Close, publish, and leave the self-serve mode. -/
def Sink.retire (s : Sink) : Option Sink :=
  (closeWindow s.flushPending).publishReady.map fun s => { s with winSs := false, winPre := 0 }

def beginPass (s : Sink) : Option Joint :=
  if s.passOpen then none
  else
    let s := { s with passStartSpan := some s.nextSpan, passOpen := true }
    some (if s.winOpen then (s, .idle) else openWindow c s none)

def submit (s : Sink) (b : PackedBatch) : Joint :=
  if b.words = [] then (s, .idle)
  else if s.winOpen then (s, .pace b)
  else openWindow c s (some b)

def endPass (s : Sink) : Option Joint :=
  if s.passOpen then ({ s with passOpen := false } : Sink).retire.map (·, .idle) else none

def finish (s : Sink) : Option Joint := s.retire.map (·, .drain)

/-- The fold has moved on over spans that were emitted and exposed, and with it the inline
ring; it runs wherever the core or the harness drives it. -/
def foldStep (s : Sink) (pos seq : ℕ) : Option Sink :=
  if s.foldPos ≤ pos ∧ pos ≤ s.nextSpan ∧ pos ≤ s.log.exposed ∧
      s.inlineFoldSeq ≤ seq ∧ seq ≤ s.inlineSeq then
    some { s with foldPos := pos, inlineFoldSeq := seq }
  else none

/-- One step of the submitting core inside a call. A step that is not enabled waits, or has
failed an assertion. -/
def core (s : Sink) : Ctl → Option Joint
  | .idle => none
  | .reuse recSlot arrSlot k => reuseStep c s recSlot arrSlot k
  | .warm recSlot arrSlot copied k => some (warmStep s recSlot arrSlot copied k)
  | .watermark tor recSlot arrSlot k => watermarkStep c s tor recSlot arrSlot k
  | .straddle k => straddleStep c s k
  | .pace b => paceStep c s b
  | .batch b => batchStep c s b
  | .claim b => claimStep c s b
  | .fix r => fixStep c s r
  | .drain => if s.foldPos < s.nextSpan then none else some (s, .idle)

inductive Label where
  | beginPass
  | submit (b : PackedBatch)
  | endPass
  | finish
  | core
  | fold (pos seq : ℕ)

def step (j : Joint) : Label → Option Joint
  | .fold pos seq => (foldStep j.1 pos seq).map (·, j.2)
  | .core => core c j.1 j.2
  | .beginPass => match j.2 with | .idle => beginPass c j.1 | _ => none
  | .submit b => match j.2 with | .idle => some (submit c j.1 b) | _ => none
  | .endPass => match j.2 with | .idle => endPass j.1 | _ => none
  | .finish => match j.2 with | .idle => finish j.1 | _ => none

/-- A sink at the start of a generation: nothing submitted or stamped, whatever an earlier
generation left in the rows, the record ring and the chunk states. -/
structure Fresh (s : Sink) : Prop where
  nextSpan : s.nextSpan = 0
  foldPos : s.foldPos = 0
  passOpen : s.passOpen = false
  passStart : s.passStartSpan = none
  submitRem : s.submitRem = chunk
  curInline : s.curInline = none
  pendingLen : s.pendingLen = 0
  inlineSeq : s.inlineSeq = 0
  inlineFoldSeq : s.inlineFoldSeq = 0
  winOpen : s.winOpen = false
  everOpened : s.everOpened = false
  marksCleared : s.marksCleared = false
  winSs : s.winSs = false
  winPre : s.winPre = 0
  steadyEpoch : s.steadyEpoch = 0
  slotEpoch : s.slotEpoch = fun _ => 0
  slotCount : s.slotCount = fun _ => none
  slotEnd : s.slotEnd = fun _ => none
  recEnd : s.recEnd = fun _ => none
  ready : s.st.ready = 0
  lastWindowCount : s.st.lastWindowCount ≤ s.st.cap
  log : s.log = ⟨[], [], 0, 0⟩

def RxdescState.new (cap : ℕ) : RxdescState where
  arrays := fun _ _ => 0
  cap := cap
  records := fun _ => none
  ready := 0
  lastSlot := none
  lastWindowCount := 0
  chunkState := fun _ => 0

def Sink.new (cap : ℕ) : Sink where
  st := .new cap
  nextSpan := 0
  foldPos := 0
  passStartSpan := none
  passOpen := false
  submitRem := chunk
  curInline := none
  pendingLen := 0
  inlineSeq := 0
  inlineFoldSeq := 0
  winOpen := false
  everOpened := false
  marksCleared := false
  torWin := false
  winSs := false
  winSlot := 0
  winRec := 0
  winBase := 0
  winCount0 := 0
  winFix0 := 0
  winPre := 0
  fixes := 0
  steadyEpoch := 0
  slotEpoch := fun _ => 0
  slotCount := fun _ => none
  slotEnd := fun _ => none
  recEnd := fun _ => none
  log := ⟨[], [], 0, 0⟩

theorem Fresh.new (cap : ℕ) : Fresh (.new cap) := by
  constructor <;> first | rfl | exact Nat.zero_le _

/-- The states of a generation. -/
def Reached (j : Joint) : Prop :=
  ∃ s, Fresh s ∧ Lib.Transition.Reachable (step c) (s, .idle) j

theorem Reached.of_run {c : Config} {cap : ℕ} {labels : List Label} {j : Joint}
    (h : Lib.Transition.run (step c) (.new cap, .idle) labels = some j) : Reached c j :=
  ⟨.new cap, .new cap, labels, h⟩

/-- A pass of one packed call, with as many steps of the core as its open and its call take. -/
def passLabels (opening : ℕ) (words : List ℕ) (submitting : ℕ) : List Label :=
  .beginPass :: List.replicate opening .core ++ .submit ⟨0, words⟩ ::
    List.replicate submitting .core

/-- The toroidal regime with every other option off. -/
def toroidalConfig : Config := ⟨true, false, true, true, false, false, 0, 2⟩

end HftProj.Testkit.RxSubmit
