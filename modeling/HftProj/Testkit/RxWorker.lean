import HftProj.Lib.Literals
import HftProj.Lib.RecordRing
import HftProj.Testkit.LaneGrid

/-!
# The descriptor worker

A lane's worker in rxdesc mode and the sink that opens submission windows for it, interleaved.
The worker polls the ready cursor, finds a window's record on the ring of records, and walks the
chunks of its lane; each read of a shared word is a step. Prefetching, the counters, the values
and the wait for room in the result ring are left out.
-/

namespace HftProj.Testkit.RxWorker

open HftProj.Lib HftProj.Testkit.LaneGrid
open HftProj.Testkit.RxSubmit (chunk recRing rxChunkCap rxNarr Opened)

structure Config where
  laneIdx : ℕ
  nLanes : ℕ
  wbatch : ℕ
  composite : Bool

/-- A record word, unpacked. -/
structure Word where
  gen : ℕ
  base : ℕ
  passStart : Bool
  arrSlot : ℕ
  deriving DecidableEq

/-- The words that are shared. -/
structure Fabric where
  records : ℕ → Word
  lastSlot : Option ℕ
  /-- The ready word: a generation and its cursor. -/
  ready : ℕ × ℕ
  chunkState : ℕ → ℕ
  blobBase : ℕ

/-- The sink in one generation. `windows` has the newest first, and no step reads `claims`. -/
structure Sink where
  gen : ℕ
  nextSpan : ℕ
  passStartSpan : Option ℕ
  winOpen : Bool
  marksCleared : Bool
  windows : List Opened
  claims : List ℕ

/-- A cell of the descriptor rows that the worker has read for a span. -/
structure Visit where
  gid : ℕ
  arrSlot : ℕ
  idx : ℕ
  deriving DecidableEq

/-- Where the worker is, with the ready cursor it has loaded, the spans of its batch so far and
the span it is at. -/
inductive Pc where
  | top
  | scan (ready slot : ℕ)
  | gate (ready : ℕ)
  | walk (ready nTotal : ℕ)
  | inner (ready nTotal gid : ℕ)
  | probe (ready nTotal gid : ℕ) (isPass : Bool)

/-- The worker; `res` has the first span and the number of spans of every result, and no step
reads `visits` or `res`. -/
structure Worker where
  gen : ℕ
  eval : ℕ
  recSlot : ℕ
  recBase : ℕ
  arrSlot : ℕ
  blobBase : ℕ
  segFirst : ℕ
  segLen : ℕ
  pc : Pc
  visits : List Visit
  res : List (ℕ × ℕ)

structure State where
  fabric : Fabric
  sink : Sink
  worker : Worker

/-! ## The sink -/

namespace Fabric

def nextSlot (f : Fabric) : ℕ :=
  match f.lastSlot with
  | none => 0
  | some last => (last + 1) % recRing

def isInline (f : Fabric) (chunkId : ℕ) : Bool :=
  f.chunkState (chunkId % rxChunkCap) == chunkId + 1

def markInline (f : Fabric) (chunkId : ℕ) : Fabric :=
  { f with chunkState := Function.update f.chunkState (chunkId % rxChunkCap) (chunkId + 1) }

/-- The record word is packed under two assertions. -/
def publishRecord (f : Fabric) (slot : ℕ) (r : Word) : Option Fabric :=
  if r.base < 2 ^ 44 ∧ r.arrSlot < rxNarr then
    some { f with records := Function.update f.records slot r, lastSlot := some slot }
  else none

/-- The ready word is packed under the assertion that the cursor fits 48 bits. -/
def publishReady (f : Fabric) (gen spans : ℕ) : Option Fabric :=
  if spans < 2 ^ 48 then some { f with ready := (gen, spans) } else none

end Fabric

/-- `rx_open_window` behind its gates; which row the window takes is left to the label. -/
def openWindow (f : Fabric) (s : Sink) (arrSlot : ℕ) : Option (Fabric × Sink) :=
  let f := if s.marksCleared then f else { f with chunkState := fun _ => 0 }
  let w : Opened := ⟨s.nextSpan, arrSlot, f.nextSlot, s.passStartSpan = some s.nextSpan⟩
  (f.publishRecord w.recSlot ⟨s.gen, w.base, w.passStart, w.arrSlot⟩).map fun f =>
    (f, { s with marksCleared := true, winOpen := true, windows := w :: s.windows })

def beginPass (f : Fabric) (s : Sink) (arrSlot : ℕ) : Option (Fabric × Sink) :=
  if s.winOpen then none
  else openWindow f { s with passStartSpan := some s.nextSpan } arrSlot

/-- Spans have their words in the window's row: checked there one by one, or, in a self-serve
window, all at its open. The first one brings the base of the blob. -/
def submit (f : Fabric) (s : Sink) (n : ℕ) : Option (Fabric × Sink) :=
  if s.winOpen ∧ 0 < n then
    some ({ f with blobBase := if f.blobBase = 0 then 1 else f.blobBase },
      { s with nextSpan := s.nextSpan + n })
  else none

/-- The spans of this generation that the ready word exposes. -/
def exposed (f : Fabric) (s : Sink) : ℕ := if f.ready.1 = s.gen then f.ready.2 else 0

/-- Some of the spans are exposed. -/
def publish (f : Fabric) (s : Sink) (v : ℕ) : Option (Fabric × Sink) :=
  if s.winOpen ∧ exposed f s ≤ v ∧ v ≤ s.nextSpan then
    (f.publishReady s.gen v).map (·, s)
  else none

/-- The next chunk is claimed by the submitting core at its open. -/
def claim (f : Fabric) (s : Sink) : Option (Fabric × Sink) :=
  if s.winOpen ∧ s.nextSpan % chunk = 0 then
    some (f.markInline (s.nextSpan / chunk), { s with claims := s.nextSpan / chunk :: s.claims })
  else none

def endPass (f : Fabric) (s : Sink) : Option (Fabric × Sink) :=
  if s.winOpen then
    (f.publishReady s.gen s.nextSpan).map (·, { s with winOpen := false })
  else none

/-! ## The worker -/

namespace Worker

/-- `SegAcc::flush`. -/
def flush (w : Worker) : Worker :=
  if w.segLen = 0 then w
  else { w with res := w.res ++ [(w.segFirst, w.segLen)], segLen := 0 }

def flushIf (w : Worker) (b : Bool) : Worker := if b then w.flush else w

/-- `SegAcc::push`. -/
def push (w : Worker) (gid : ℕ) : Worker :=
  { w with segFirst := if w.segLen = 0 then gid else w.segFirst, segLen := w.segLen + 1 }

/-- The end of the chunk that the cursor is in, or of what is exposed of it. -/
def chunkHi (w : Worker) (ready : ℕ) : ℕ := min ((w.eval / chunk + 1) * chunk) ready

variable (c : Config)

/-- A span is evaluated from the word in the current record's row. -/
def evaluate (w : Worker) (ready nTotal gid : ℕ) (isPass : Bool) : Worker :=
  let w := w.flushIf (c.composite && isPass)
  let w := { w with visits := w.visits ++ [Visit.mk gid w.arrSlot (gid - w.recBase)] }
  let w :=
    if c.composite then (w.flushIf (w.segLen = chunk)).push gid
    else { w with res := w.res ++ [(gid, 1)] }
  { w with pc := .inner ready (nTotal + 1) (gid + 1) }

/-- Where the walk resumes: in place, in the lane's next chunk, or at the ready cursor. -/
def resume (w : Worker) (ready gid : ℕ) : ℕ :=
  if gid < w.chunkHi ready then gid
  else if w.chunkHi ready = (w.eval / chunk + 1) * chunk then (w.eval / chunk + c.nLanes) * chunk
  else w.chunkHi ready

/-- The chunk, or what is exposed of it or left of the batch, has been walked. -/
def chunkEnd (w : Worker) (ready nTotal gid : ℕ) : Worker :=
  { w.flushIf (c.composite && gid = (w.eval / chunk + 1) * chunk) with
    eval := w.resume c ready gid, pc := .walk ready nTotal }

/-- A fresh generation: the lane starts at its first chunk, with the first record to be found. -/
def anchor (w : Worker) (gen ready : ℕ) : Worker :=
  { w with
    gen := gen, eval := c.laneIdx * chunk, recBase := 0, blobBase := 0, pc := .scan ready 0 }

/-- One step; `none` is the panic over a generation without a first record. -/
def step (f : Fabric) (w : Worker) : Option Worker :=
  match w.pc with
  | .top =>
      if f.ready.1 = w.gen then some { w with pc := .gate f.ready.2 }
      else some (w.anchor c f.ready.1 f.ready.2)
  | .scan ready slot =>
      let r := f.records slot
      if r.gen = w.gen ∧ r.base = 0 then
        some { w with recSlot := slot, arrSlot := r.arrSlot, pc := .gate ready }
      else if slot + 1 < recRing then some { w with pc := .scan ready (slot + 1) }
      else if ready = 0 then some { w with pc := .top }
      else none
  | .gate ready =>
      let w := { w with blobBase := if w.blobBase = 0 then f.blobBase else w.blobBase }
      if w.blobBase = 0 ∨ ready ≤ w.eval then some { w with pc := .top }
      else some { w with pc := .walk ready 0 }
  | .walk ready nTotal =>
      if nTotal < c.wbatch ∧ w.eval < ready then
        if w.eval = w.eval / chunk * chunk ∧ f.isInline (w.eval / chunk) then
          some { w with eval := (w.eval / chunk + c.nLanes) * chunk }
        else some { w with pc := .inner ready nTotal w.eval }
      else some { w.flushIf c.composite with pc := .top }
  | .inner ready nTotal gid =>
      if gid < w.chunkHi ready ∧ nTotal < c.wbatch then
        some { w with pc := .probe ready nTotal gid false }
      else some (w.chunkEnd c ready nTotal gid)
  | .probe ready nTotal gid isPass =>
      let slot := (w.recSlot + 1) % recRing
      let r := f.records slot
      if r.gen = w.gen ∧ w.recBase < r.base ∧ r.base ≤ gid then
        some { w with
          recSlot := slot, recBase := r.base, arrSlot := r.arrSlot,
          pc := .probe ready nTotal gid r.passStart }
      else some (w.evaluate c ready nTotal gid isPass)

end Worker

/-! ## Runs -/

inductive Label where
  | beginPass (arrSlot : ℕ)
  | submit (n : ℕ)
  | publish (v : ℕ)
  | claim
  | endPass
  | worker

variable (c : Config)

/-- A step of the sink, or one of the worker. -/
def step (s : State) : Label → Option State
  | .beginPass a => (beginPass s.fabric s.sink a).map fun p => ⟨p.1, p.2, s.worker⟩
  | .submit n => (submit s.fabric s.sink n).map fun p => ⟨p.1, p.2, s.worker⟩
  | .publish v => (publish s.fabric s.sink v).map fun p => ⟨p.1, p.2, s.worker⟩
  | .claim => (claim s.fabric s.sink).map fun p => ⟨p.1, p.2, s.worker⟩
  | .endPass => (endPass s.fabric s.sink).map fun p => ⟨p.1, p.2, s.worker⟩
  | .worker => (s.worker.step c s.fabric).map (⟨s.fabric, s.sink, ·⟩)

/-- A generation starts: nothing of it is published, and the worker is idle at the end of the
one before, wherever that has left it. -/
structure Start (s : State) : Prop where
  nextSpan : s.sink.nextSpan = 0
  winOpen : s.sink.winOpen = false
  marksCleared : s.sink.marksCleared = false
  windows : s.sink.windows = []
  claims : s.sink.claims = []
  records : ∀ slot, (s.fabric.records slot).gen ≠ s.sink.gen
  lastSlot : ∀ last ∈ s.fabric.lastSlot, last < recRing
  stale : s.fabric.ready.1 ≠ s.sink.gen
  polled : s.worker.gen = s.fabric.ready.1
  drained : s.fabric.ready.2 ≤ s.worker.eval
  pc : s.worker.pc = .top
  segLen : s.worker.segLen = 0
  visits : s.worker.visits = []
  res : s.worker.res = []

/-- A fabric at its construction, with a first sink. -/
def State.new : State where
  fabric := ⟨fun _ => ⟨0, 0, false, 0⟩, none, (0, 0), fun _ => 0, 0⟩
  sink := ⟨1, 0, none, false, false, [], []⟩
  worker := ⟨0, 0, 0, 0, 0, 0, 0, 0, .top, [], []⟩

theorem Start.new : Start .new := by
  constructor <;> first | rfl | decide | nofun

/-- The window that holds a span: the newest one that starts at or before it. -/
def owner (windows : List Opened) (gid : ℕ) : Option Opened := windows.find? (·.base ≤ gid)

/-- The positions below a bound that the lane has to visit. -/
def due (claims : List ℕ) (bound : ℕ) : List ℕ :=
  (List.range bound).filter fun q => OwnSpan c.laneIdx c.nLanes q ∧ q / chunk ∉ claims

namespace State

/-- The base of the record that the worker stands on, or is to find first. -/
def recPlace (s : State) : ℕ := if s.worker.gen = s.sink.gen then s.worker.recBase else 0

/-- How many windows have been opened beyond it. -/
def ahead (s : State) : ℕ := s.sink.windows.countP fun w => s.recPlace < w.base

/-- Where the worker's walk is. -/
def evalPlace (s : State) : ℕ := if s.worker.gen = s.sink.gen then s.worker.eval else 0

end State

/-- A pass opens its window behind one that holds a span, and with it there are fewer than
`recRing` windows ahead of the worker; a claim does not reuse the chunk state of another claimed
chunk that the worker has still to look at. -/
def Spaced (s : State) : Label → Prop
  | .beginPass _ => (∀ w ∈ s.sink.windows.head?, w.base < s.sink.nextSpan) ∧ s.ahead + 1 < recRing
  | .claim => ∀ k ∈ s.sink.claims, k % rxChunkCap = s.sink.nextSpan / chunk % rxChunkCap →
      k = s.sink.nextSpan / chunk ∨ k * chunk < s.evalPlace
  | _ => True

instance (s : State) : (i : Label) → Decidable (Spaced s i)
  | .beginPass _ => inferInstanceAs (Decidable (_ ∧ _))
  | .claim => inferInstanceAs (Decidable (∀ k ∈ s.sink.claims, _ → _))
  | .submit _ => .isTrue trivial
  | .publish _ => .isTrue trivial
  | .endPass => .isTrue trivial
  | .worker => .isTrue trivial

/-- A step that meets the condition. -/
def spacedStep (s : State) (i : Label) : Option State := if Spaced s i then step c s i else none

end HftProj.Testkit.RxWorker
