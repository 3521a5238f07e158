import HftProj.Lib.Tiling
import HftProj.Testkit.FoldJournal
import HftProj.Testkit.LaneGrid

/-!
# The replay log

A worker's lane emits the same segments pass after pass, shifted. The log records the segments
of a pass under the phase of its boundary, seals the script if it tiles the lane's positions of
the pass, and arms its replay when a later boundary has the same phase.
-/

namespace HftProj.Testkit

open HftProj.Lib HftProj.Testkit.RxSubmit HftProj.Testkit.LaneGrid

def reslogSegs : ℕ := 65536
def reslogPhases : ℕ := 8192
def u64Max : ℕ := 2 ^ 64 - 1

/-- `rel` is relative to the boundary of the pass. -/
structure ResLogSeg where
  rel : ℕ
  k : ℕ
  b : U64

/-- The log of one lane. A boundary is `none` where the code has `u64::MAX`. The emission
counter is left out. -/
structure ResLog where
  enabled : Bool
  audit : Bool
  poisoned : Bool
  recording : Bool
  segs : List ResLogSeg
  phaseLo : ℕ → ℕ
  phaseN : ℕ → ℕ
  phaseRb : ℕ → ℕ
  phaseBc : ℕ → BitVec 32 × U64
  epoch : ℕ
  pendingBc : Option (ℕ × BitVec 32 × U64)
  bcAcc : BitVec 32 × U64
  laneIdx : ℕ
  nLanes : ℕ
  grid : ℕ
  curRb : Option ℕ
  prevRb : Option ℕ
  passLen : ℕ
  replaying : Bool
  phase : ℕ
  rpNext : ℕ
  rpEnd : ℕ
  replayedPasses : ℕ
  livePasses : ℕ

namespace ResLog

/-- A grid beyond the phase table is refused. -/
def new (enabled audit : Bool) (nLanes : ℕ) : Option ResLog :=
  let grid := nLanes * chunk
  if grid ≤ reslogPhases then
    some
      { enabled := enabled
        audit := audit
        poisoned := false
        recording := false
        segs := []
        phaseLo := fun _ => 0
        phaseN := fun _ => 0
        phaseRb := fun _ => 0
        phaseBc := fun _ => (0, 0)
        epoch := 0
        pendingBc := none
        bcAcc := (0, 0)
        laneIdx := 0
        nLanes := nLanes
        grid := grid
        curRb := none
        prevRb := none
        passLen := 0
        replaying := false
        phase := 0
        rpNext := 0
        rpEnd := 0
        replayedPasses := 0
        livePasses := 0 }
  else none

def setLane (log : ResLog) (laneIdx : ℕ) : ResLog := { log with laneIdx := laneIdx }

def resetGen (log : ResLog) : ResLog :=
  { log with
    segs := []
    phaseN := fun _ => 0
    recording := false
    replaying := false
    curRb := none
    prevRb := none
    passLen := 0
    epoch := 0
    pendingBc := none
    bcAcc := (0, 0) }

def poison (log : ResLog) : ResLog :=
  { log with
    poisoned := true
    segs := []
    phaseN := fun _ => 0
    recording := false
    replaying := false
    pendingBc := none
    bcAcc := (0, 0) }

def openRecording (log : ResLog) (rb : ℕ) : ResLog :=
  let phase := rb % log.grid
  { log with
    phase := phase
    recording := true
    phaseLo := Function.update log.phaseLo phase log.segs.length
    phaseRb := Function.update log.phaseRb phase rb
    phaseN := Function.update log.phaseN phase 0
    livePasses := log.livePasses + 1 }

/-- Where the tiling ends, if every segment starts where the one before it ended or a foreign
gap later. -/
@[grind =]
def tileEnd (gap : ℕ) : ℕ → List ResLogSeg → Option ℕ
  | stop, [] => some stop
  | stop, s :: rest =>
      if s.rel ≠ stop ∧ s.rel ≠ stop + gap then none else tileEnd gap (s.rel + s.k) rest

/-- The coverage law of the lane, between the current boundary and the next. -/
def tiles (log : ResLog) (rb : ℕ) : Bool :=
  let cur := log.curRb.getD u64Max
  let headRel := LaneGrid.wrappingSub (laneSpanEntry cur log.laneIdx log.nLanes) cur
  let tailRel := laneSpanExit rb log.laneIdx log.nLanes - cur
  match log.segs.drop (log.phaseLo log.phase) with
  | [] => false
  | first :: rest =>
      if first.rel ≠ headRel then false
      else tileEnd ((log.nLanes - 1) * chunk) first.rel (first :: rest) == some tailRel

/-- The end of a recording: the script is sealed or dropped. -/
def closeRecording (log : ResLog) (rb : ℕ) : ResLog :=
  if log.recording then
    let lo := log.phaseLo log.phase
    if log.tiles rb then
      { log with
        phaseN := Function.update log.phaseN log.phase (log.segs.length - lo)
        phaseBc := Function.update log.phaseBc log.phase log.bcAcc
        recording := false }
    else
      { log with
        segs := log.segs.take lo
        phaseN := Function.update log.phaseN log.phase 0
        recording := false }
  else log

/-- The length law: all passes are as long as the first, or the log starts anew. -/
def lengthLaw (log : ResLog) (rb : ℕ) : ResLog :=
  match log.prevRb with
  | none => log
  | some prev =>
      let delta := LaneGrid.wrappingSub rb prev
      if log.passLen = 0 then { log with passLen := delta }
      else if delta ≠ log.passLen then log.resetGen
      else log

/-- The pass behind a boundary replays the script of its phase, or records one. -/
def arm (log : ResLog) (rb : ℕ) : ResLog :=
  if log.poisoned || log.audit || !log.enabled then { log with livePasses := log.livePasses + 1 }
  else
    let n := log.phaseN log.phase
    if 0 < n then
      let off := LaneGrid.wrappingSub rb (log.phaseRb log.phase)
      if 0 < log.passLen ∧ off % log.passLen = 0 then
        { log with
          rpNext := log.phaseLo log.phase
          rpEnd := log.phaseLo log.phase + n
          replaying := true
          replayedPasses := log.replayedPasses + 1 }
      else
        { log.resetGen with prevRb := some rb }.openRecording rb
    else log.openRecording rb

def onBoundary (log : ResLog) (rb : ℕ) : ResLog :=
  let closed := log.closeRecording rb
  let staged : ResLog :=
    { closed with bcAcc := (0, 0), pendingBc := some (log.epoch, log.bcAcc) }
  let lawful := staged.lengthLaw rb
  let crossed : ResLog :=
    { lawful with
      prevRb := some rb
      curRb := some rb
      phase := rb % lawful.grid
      replaying := false
      epoch := lawful.epoch + 1 }
  crossed.arm rb

def noteEmitted (log : ResLog) (k : ℕ) (b : U64) : ResLog :=
  { log with bcAcc := segCompose log.bcAcc (BitVec.ofNat 32 k, b) }

def pushSeg (log : ResLog) (first k : ℕ) (b : U64) : ResLog :=
  let noted := log.noteEmitted k b
  if !noted.recording || noted.poisoned then noted
  else if reslogSegs ≤ noted.segs.length then noted.poison
  else
    let rel := LaneGrid.wrappingSub first (noted.curRb.getD u64Max) % 2 ^ 32
    { noted with segs := noted.segs ++ [⟨rel, k, b⟩] }

def discardPhase (log : ResLog) : ResLog :=
  if !log.recording then log
  else
    { log with
      segs := log.segs.take (log.phaseLo log.phase)
      phaseN := Function.update log.phaseN log.phase 0
      recording := false
      livePasses := log.livePasses + 1 }

end ResLog

end HftProj.Testkit
