import HftProj.Lib.Frontiers
import HftProj.Testkit.FrameTag
import HftProj.Testkit.SuperFold

/-!
# Slot tapes

The construction demultiplexes a span stream over the slots of a fleet. Each slot records its
spans on two grids, in chunks of 512 spans and in super-chunks of 1024, with the frontiers that
the windows reach on each. The owners replay a window from either grid.
-/

namespace HftProj.Testkit.FleetTape

open FrameTag SpanField SuperFold

/-- `SPAN_SEED`. -/
def spanSeed : BitVec 64 := 0xcbf29ce484222325

/-- `SLOT_CHUNK`. -/
def slotChunk : ℕ := 512

/-- What the dispatching kernels find on the host. -/
structure Host where
  x86 : Bool
  mode : Mode
  cpu : Cpu

/-! ## The state -/

structure SlotTape where
  chunkRec : List P64
  windowRec : List P64
  windowMsgs : List (BitVec 64)
  windowH : List (BitVec 64)
  windowChunks : List ℕ
  subRec : List P64
  supers : List P64
  windowSuper : List ℕ

/-- `SlotTape::new`. -/
def SlotTape.new : SlotTape := ⟨[], [], [], [], [0], [], [], [0]⟩

/-- A slot's tape and what the sink keeps for the slot. -/
structure SlotState where
  tape : SlotTape
  winAcc : P64
  chunkAcc : P64
  chunkLen : ℕ
  winMsgs : BitVec 64
  winH : BitVec 64
  subAcc : P64
  subLen : ℕ
  subTotal : ℕ
  superPending : List P64
  sinceSuper : P64
  sinceSuperLen : ℕ

def SlotState.new : SlotState where
  tape := SlotTape.new
  winAcc := P64.identity
  chunkAcc := P64.identity
  chunkLen := 0
  winMsgs := 0
  winH := spanSeed
  subAcc := P64.identity
  subLen := 0
  subTotal := 0
  superPending := []
  sinceSuper := P64.identity
  sinceSuperLen := 0

@[ext]
structure Dig where
  v : BitVec 64
  c : BitVec 64
  db : BitVec 64
  da : BitVec 64
  deg : BitVec 32
  cnt : BitVec 32

/-- `Dig::identity`. -/
def Dig.identity : Dig := ⟨0, 0, 0, 0, 0, 0⟩

/-- `Dig::accum`. -/
def Dig.accum (d : Dig) (x : P64) : Dig :=
  ⟨d.v ^^^ x.v, d.c ^^^ x.c, d.db + x.db, d.da + x.da, d.deg + x.deg, d.cnt + x.cnt⟩

/-- `Dig::hash`. -/
def Dig.hash (d : Dig) : BitVec 64 :=
  d.v ^^^ d.c.rotateLeft 17 ^^^ d.db.rotateLeft 31 ^^^ d.da.rotateLeft 47 ^^^
    d.deg.setWidth 64 <<< 32 ^^^ d.cnt.setWidth 64

/-- `WinTuple`. -/
abbrev WinTuple := BitVec 64 × BitVec 64 × BitVec 64

structure BatchSched (n : ℕ) where
  slotSpans : Fin n → BitVec 16
  chunks : List (BitVec 8 × BitVec 32)

/-- The construction state of `FleetSink`. -/
structure FleetSink (n : ℕ) where
  slots : Fin n → SlotState
  batchDeltas : Fin n → BitVec 16
  batchChunks : List (BitVec 8 × BitVec 32)
  sched : List (BatchSched n)
  oracle : List WinTuple
  dayChain : BitVec 64

/-- `new_construction`. -/
def FleetSink.new (n : ℕ) : FleetSink n where
  slots _ := SlotState.new
  batchDeltas _ := 0
  batchChunks := []
  sched := []
  oracle := []
  dayChain := spanSeed

/-! ## A span -/

section Steps

variable (host : Host)

/-- `span_record`. -/
def spanRecord (body : List UInt8) (msgCount : BitVec 32) : P64 where
  v := spanCrc32c8lane host.x86 host.mode body
  c := shiftPow host.cpu body.length
  db := 0
  da := 0
  px := 0
  tag := 0
  deg := BitVec.ofNat 32 body.length
  cnt := msgCount
  flg := 0

/-- `demux_msg`: the hash of the stock locate. -/
def demuxMsg (nSlots : ℕ) (msg : List UInt8) : ℕ :=
  let locate : BitVec 16 := if 5 ≤ msg.length then
    (msg.getD 3 0).toBitVec.setWidth 16 <<< 8 ||| (msg.getD 4 0).toBitVec.setWidth 16 else 0
  let h := (locate.setWidth 64 * 0x9E3779B97F4A7C15) >>> 24
  (h.toNat % nSlots) % 256

theorem demuxMsg_lt {nSlots : ℕ} (h : 0 < nSlots) (msg : List UInt8) :
    demuxMsg nSlots msg < nSlots :=
  (Nat.mod_le _ _).trans_lt (Nat.mod_lt _ h)

/-- The slot of a message. -/
def slotOf {nSlots : ℕ} (h : 0 < nSlots) (msg : List UInt8) : Fin nSlots :=
  ⟨demuxMsg nSlots msg, demuxMsg_lt h msg⟩

/-- The window's chain, its message count and its accumulator. -/
def SlotState.window (r : P64) (msgCount : BitVec 32) (st : SlotState) : SlotState :=
  { st with
    winH := mulmod host.cpu st.winH r.c ^^^ r.v
    winMsgs := st.winMsgs + msgCount.setWidth 64
    winAcc := p64Compose host.cpu st.winAcc r }

/-- The chunk accumulator, pushed when it is full. -/
def SlotState.chunk (r : P64) (st : SlotState) : SlotState :=
  let acc := p64Compose host.cpu st.chunkAcc r
  if st.chunkLen + 1 = slotChunk then
    { st with
      tape := { st.tape with chunkRec := st.tape.chunkRec ++ [acc] }
      chunkAcc := P64.identity
      chunkLen := 0 }
  else { st with chunkAcc := acc, chunkLen := st.chunkLen + 1 }

/-- What follows a whole sub-record: a super-chunk's last leaf resets the boundary accumulator, a
pair's last leaf folds the pair. -/
def SlotState.pairUp (st : SlotState) : Option SlotState :=
  if st.superPending.length = superSubs then
    some { st with sinceSuper := P64.identity, sinceSuperLen := 0 }
  else if st.superPending.length = 2 * superSubs then
    (superFoldPair host.cpu st.superPending).map fun roots =>
      { st with
        tape := { st.tape with supers := st.tape.supers ++ [roots 0, roots 1] }
        superPending := []
        sinceSuper := P64.identity
        sinceSuperLen := 0 }
  else some st

/-- The sub-record accumulator and the boundary accumulator. -/
def SlotState.sub (r : P64) (st : SlotState) : Option SlotState :=
  let acc := p64Compose host.cpu st.subAcc r
  let st := { st with
    sinceSuper := p64Compose host.cpu st.sinceSuper r
    sinceSuperLen := st.sinceSuperLen + 1 }
  if st.subLen + 1 = subSpans then
    SlotState.pairUp host { st with
      tape := { st.tape with subRec := st.tape.subRec ++ [acc] }
      superPending := st.superPending ++ [acc]
      subAcc := P64.identity
      subLen := 0
      subTotal := st.subTotal + 1 }
  else some { st with subAcc := acc, subLen := st.subLen + 1 }

/-- What a span does to its slot. -/
def SlotState.span (r : P64) (msgCount : BitVec 32) (st : SlotState) : Option SlotState :=
  ((st.window host r msgCount).chunk host r).sub host r

/-- `construct_span`. -/
def constructSpan {n : ℕ} (demux : List UInt8 → Fin n) (σ : FleetSink n)
    (span : List UInt8 × BitVec 32) : Option (FleetSink n) :=
  let s := demux span.1
  let r := spanRecord host span.1 span.2
  ((σ.slots s).span host r span.2).map fun st =>
    { σ with
      slots := Function.update σ.slots s st
      batchDeltas := Function.update σ.batchDeltas s (σ.batchDeltas s + 1)
      batchChunks := if (σ.slots s).chunkLen + 1 = slotChunk then
          σ.batchChunks ++ [(BitVec.ofNat 8 s.val, BitVec.ofNat 32 (st.tape.chunkRec.length - 1))]
        else σ.batchChunks }

/-- `seal_batch_sched`. -/
def sealBatchSched {n : ℕ} (σ : FleetSink n) : FleetSink n :=
  { σ with
    sched := σ.sched ++ [⟨σ.batchDeltas, σ.batchChunks⟩]
    batchChunks := []
    batchDeltas := fun _ => 0 }

/-! ## The end of a window -/

/-- The last chunk of the window. -/
def SlotState.flushChunk (st : SlotState) : SlotState :=
  if 0 < st.chunkLen then
    { st with
      tape := { st.tape with chunkRec := st.tape.chunkRec ++ [st.chunkAcc] }
      chunkLen := 0
      chunkAcc := P64.identity }
  else st

/-- A super-chunk of staged leaves is folded and recorded. -/
def SlotState.recordSuper (st : SlotState) : SlotState :=
  { st with
    tape := { st.tape with
      supers := st.tape.supers ++ [superFoldSerial host.cpu (st.superPending.take superSubs)] }
    superPending := st.superPending.drop superSubs }

/-- The staged super-chunks that are whole. -/
@[grind =]
def SlotState.flushSupers (st : SlotState) : SlotState :=
  if superSubs ≤ st.superPending.length then SlotState.flushSupers (st.recordSuper host) else st
termination_by st.superPending.length
decreasing_by
  have hsubs : superSubs = 16 := rfl
  change (st.superPending.drop superSubs).length < st.superPending.length
  rw [List.length_drop]
  omega

/-- The spans since the last whole super-chunk. -/
def SlotState.boundary (st : SlotState) : SlotState :=
  if 0 < st.sinceSuperLen then
    { st with
      tape := { st.tape with supers := st.tape.supers ++ [st.sinceSuper] }
      sinceSuper := P64.identity
      sinceSuperLen := 0 }
  else st

/-- The super-chunk grid's frontier. -/
def SlotState.pushFrontier (st : SlotState) : SlotState :=
  { st with
    tape := { st.tape with windowSuper := st.tape.windowSuper ++ [st.tape.supers.length] } }

/-- The records of the window, and the fresh start of the next. -/
def SlotState.pushWindow (st : SlotState) : SlotState :=
  { st with
    tape := { st.tape with
      windowRec := st.tape.windowRec ++ [st.winAcc]
      windowMsgs := st.tape.windowMsgs ++ [st.winMsgs]
      windowH := st.tape.windowH ++ [st.winH]
      windowChunks := st.tape.windowChunks ++ [st.tape.chunkRec.length] }
    winMsgs := 0
    winH := spanSeed
    winAcc := P64.identity }

/-- The window's end for one slot: none if the two paths to the hash disagree. -/
def SlotState.close (st : SlotState) : Option SlotState :=
  let st := ((st.flushChunk.flushSupers host).boundary).pushFrontier
  if st.winH = mulmod host.cpu spanSeed st.winAcc.c ^^^ st.winAcc.v then some st.pushWindow
  else none

/-- What the loop over the slots carries. -/
structure Closing (n : ℕ) where
  slots : Fin n → SlotState
  d : Dig
  count : BitVec 64
  msgHash : BitVec 64

/-- One slot of `construct_window_close`. -/
def closeSlot {n : ℕ} (acc : Closing n) (s : Fin n) : Option (Closing n) :=
  ((acc.slots s).close host).map fun st =>
    { slots := Function.update acc.slots s st
      d := acc.d.accum (acc.slots s).winAcc
      count := acc.count + (acc.slots s).winMsgs
      msgHash := acc.msgHash ^^^ (acc.slots s).winH }

/-- `construct_window_close`. -/
def constructWindowClose {n : ℕ} (σ : FleetSink n) : Option (FleetSink n) :=
  ((List.finRange n).foldlM (closeSlot host) ⟨σ.slots, Dig.identity, 0, 0⟩).map fun acc =>
    { σ with
      slots := acc.slots
      dayChain := mulmod host.cpu σ.dayChain (tPow host.cpu 64) ^^^ acc.d.hash
      oracle := σ.oracle ++ [(acc.count, acc.d.hash, acc.msgHash)] }

/-! ## The construction pass -/

/-- A batch of spans, sealed. -/
def constructBatch {n : ℕ} (demux : List UInt8 → Fin n) (σ : FleetSink n)
    (batch : List (List UInt8 × BitVec 32)) : Option (FleetSink n) :=
  (batch.foldlM (constructSpan host demux) σ).map sealBatchSched

/-- The batches of a window and its end. -/
def constructWindow {n : ℕ} (demux : List UInt8 → Fin n) (σ : FleetSink n)
    (window : List (List (List UInt8 × BitVec 32))) : Option (FleetSink n) :=
  (window.foldlM (constructBatch host demux) σ).bind (constructWindowClose host)

/-- The construction of a stream that is cut into windows. -/
def construct {n : ℕ} (demux : List UInt8 → Fin n)
    (windows : List (List (List (List UInt8 × BitVec 32)))) : Option (FleetSink n) :=
  windows.foldlM (constructWindow host demux) (FleetSink.new n)

/-! ## The owners -/

@[ext]
structure CompositeEntry where
  v : BitVec 64
  c : BitVec 64
  db : BitVec 64
  da : BitVec 64
  hFinal : BitVec 64
  msgs : BitVec 64
  window : ℕ
  degCnt : BitVec 64

/-- What `owner_loop` keeps for a slot. -/
structure Owner where
  evCon : ℕ
  winCon : ℕ
  acc : P64
  h : BitVec 64

def Owner.new : Owner := ⟨0, 0, P64.identity, spanSeed⟩

/-- One event of a window's range, read modulo the tape's total. -/
def Owner.event (recs : List P64) (o : Owner) : Owner :=
  let r := recs.getD (o.evCon % max recs.length 1) P64.identity
  { o with
    acc := p64Compose host.cpu o.acc r
    h := mulmod host.cpu o.h r.c ^^^ r.v
    evCon := o.evCon + 1 }

/-- The events up to the window's frontier. -/
@[grind =]
def Owner.consume (recs : List P64) (evEnd : ℕ) (o : Owner) : Owner :=
  if o.evCon < evEnd then Owner.consume recs evEnd (o.event host recs) else o
termination_by evEnd - o.evCon
decreasing_by
  exact Nat.sub_succ_lt_self _ _ ‹_›

/-- The records and the frontiers of the grid that the dial selects. -/
def SlotTape.grid (tape : SlotTape) (useSuper : Bool) : List P64 × List ℕ :=
  if useSuper then (tape.supers, tape.windowSuper) else (tape.chunkRec, tape.windowChunks)

/-- One window of `owner_loop`, with the entry that it publishes. -/
def ownerWindow (tape : SlotTape) (nWin : ℕ) (useSuper : Bool) (o : Owner) :
    CompositeEntry × Owner :=
  let (recs, fronts) := tape.grid useSuper
  let cycleBase := o.winCon / max nWin 1 * recs.length
  let wLocal := o.winCon % max nWin 1
  let o := o.consume host recs (cycleBase + fronts.getD (wLocal + 1) 0)
  ({ v := o.acc.v
     c := o.acc.c
     db := o.acc.db
     da := o.acc.da
     hFinal := o.h
     msgs := tape.windowMsgs.getD wLocal 0
     window := o.winCon
     degCnt := o.acc.deg.setWidth 64 <<< 32 ||| o.acc.cnt.setWidth 64 },
    { o with acc := P64.identity, h := spanSeed, winCon := o.winCon + 1 })

/-- The owner's state behind a number of windows. -/
@[grind =]
def ownerAt (tape : SlotTape) (nWin : ℕ) (useSuper : Bool) : ℕ → Owner
  | 0 => Owner.new
  | k + 1 => (ownerWindow host tape nWin useSuper (ownerAt tape nWin useSuper k)).2

/-- The entry that the owner publishes for its window `k`. -/
def published (tape : SlotTape) (nWin : ℕ) (useSuper : Bool) (k : ℕ) : CompositeEntry :=
  (ownerWindow host tape nWin useSuper (ownerAt host tape nWin useSuper k)).1

end Steps

end HftProj.Testkit.FleetTape
