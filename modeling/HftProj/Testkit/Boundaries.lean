import HftProj.Testkit.LaneGrid
import HftProj.Testkit.OrderedFold

/-!
# Completing the boundaries

The sink's ring of pass records, and the loop that completes the oldest pending passes whose
boundary the fold has crossed. With one fold the journal is flushed up to the boundary; when the
lanes are split, the journals of both lanes are merged, once an election keyed by the boundary's
position is won. What the other thread has published is read anew in every turn of the loop.
Counters that are only printed are left out.
-/

namespace HftProj.Testkit.Boundaries

open HftProj.Lib HftProj.Testkit.LaneGrid
open HftProj.Testkit.OrderedFold (passRing)
open HftProj.Testkit.OrderedFold.Stream (spanSeed)

/-- The room for merged leaves, `J1_CAP`. -/
def j1Cap : ℕ := 8192

/-- A pass; `endSpan` is `none` for `u64::MAX`, until the pass is closed. -/
structure PassRec where
  endSpan : Option ℕ
  count : ℕ
  hash : U64
  done : Bool
  passId : ℕ

/-- The fold's account of the lanes' spans, per pass. -/
structure Sheaf where
  completed : ℕ
  laneK : ℕ
  prevLaneK : ℕ
  checked : ℕ
  missed : ℕ

/-- The sink's side; the election word and the retire cursor of the shared ring are written by it
alone. -/
structure Sink where
  passes : ℕ → PassRec
  passTail : ℕ
  passHead : ℕ
  foldPos : ℕ
  z1FoldPos : ℕ
  hash : U64
  journal : FoldJournal
  gate : Bool
  dualArmed : Bool
  dualC1Pass : ℕ
  boundaryTaken : ℕ
  j1Consumed : ℕ
  sheaf : Sheaf

/-- The second thread's arrival at a boundary. -/
structure Arrival where
  count : ℕ
  runStart : ℕ
  runLen : ℕ

/-- What the gate and the lanes' slots hold when a turn reads them. `j1` has all leaves published
since the arm, and `lanes` the epoch and degree of each lane's slot. -/
structure View where
  armedPass : ℕ
  poisonAt : Option (ℕ × ℕ)
  p1Fold : ℕ
  arrivalFull : ℕ → Option Arrival
  j1 : List Leaf
  scriptN : ℕ
  oddTotalsBefore : ℕ → ℕ
  lanes : Option (List (ℕ × ℕ))

/-! ## The sheaf check -/

/-- The common epoch of the lanes and the sum of their degrees; `none` if the lanes straddle
epochs. -/
@[grind =]
def sheafScan (c : ℕ) : Option ℕ → ℕ → List (ℕ × ℕ) → Option (Option ℕ × ℕ)
  | common, sum, [] => some (common, sum)
  | none, sum, (e, k) :: lanes =>
      if e = c ∨ e + 1 = c then sheafScan c (some e) (sum + k) lanes else none
  | some e₀, sum, (e, k) :: lanes =>
      if e₀ = e then sheafScan c (some e₀) (sum + k) lanes else none

def sheafCheck (sh : Sheaf) (lanes : Option (List (ℕ × ℕ))) : Sheaf :=
  match lanes with
  | none => sh
  | some lanes =>
      match sheafScan sh.completed none 0 lanes with
      | some (some e, sum) =>
          let want := if e = sh.completed then sh.laneK else sh.prevLaneK
          if sum = want then { sh with checked := sh.checked + 1 }
          else { sh with missed := sh.missed + 1 }
      | some (none, _) => { sh with missed := sh.missed + 1 }
      | none => { sh with missed := sh.missed + 1 }

def sheafCheckAndRoll (sh : Sheaf) (lanes : Option (List (ℕ × ℕ))) : Sheaf :=
  { sheafCheck sh lanes with
    prevLaneK := sh.laneK
    laneK := 0
    completed := sh.completed + 1 }

/-! ## The merge -/

def partitionLen (J : FoldJournal) (boundary : ℕ) : ℕ :=
  (J.leaves.takeWhile (·.stop ≤ boundary)).length

def retireUpto (J : FoldJournal) (boundary : ℕ) : FoldJournal :=
  { J with leaves := J.leaves.drop (partitionLen J boundary) }

/-- The end of the shared ring's part of a boundary: that of the run an arrival has announced, if
it starts at the retire cursor and is published, or else found by a scan. `none` is a failed
assertion. -/
def j1Stop (v : View) (consumed endSpan : ℕ) : Option Arrival → Option ℕ
  | some a =>
      if a.runStart = consumed ∧ a.runStart + a.runLen ≤ v.j1.length then
        some (a.runStart + a.runLen)
      else none
  | none => some (consumed + ((v.j1.drop consumed).takeWhile (·.stop ≤ endSpan)).length)

/-- One step of the insertion sort, on the sorted part from its end. -/
@[grind =]
def insertStop (l : Leaf) : List Leaf → List Leaf
  | [] => [l]
  | t :: ts => if l.stop < t.stop then t :: insertStop l ts else l :: t :: ts

/-- The staging sorted by position. -/
def sortStaging (ls : List Leaf) : List Leaf :=
  (ls.foldl (fun sorted l => insertStop l sorted) []).reverse

/-- The two-finger merge, a run of the other thread's leaves at a time; on a tie this thread's
comes first. -/
@[grind =]
def mergeRuns : List Leaf → List Leaf → List Leaf
  | [], other => other
  | l :: own, other =>
      other.takeWhile (·.stop < l.stop) ++
        l :: mergeRuns own (other.dropWhile (·.stop < l.stop))

/-- The leaves of both journals by position. -/
def staging (unsorted : Bool) (own other : List Leaf) : List Leaf :=
  if unsorted then sortStaging (own ++ other) else mergeRuns own other

def mergeHash (hash : U64) (leaves : List Leaf) : U64 :=
  if leaves = [] then hash else applyLeaf hash (treeFoldSegments (leaves.map Leaf.seg))

/-! ## The loop -/

/-- What a turn of the loop comes to. -/
inductive Turn where
  | stop
  | next (s : Sink)
  | panic

namespace Sink

/-- The oldest pending record. -/
def oldest (s : Sink) : PassRec := s.passes s.passTail

/-- The record at the tail is done, the chain starts anew, and the tail moves on. -/
def snapshot (s : Sink) (hash : U64) (extra : ℕ) (journal : FoldJournal) (sheaf : Sheaf) : Sink :=
  { s with
    passes := Function.update s.passes s.passTail
      { s.oldest with hash := hash, done := true, count := (s.oldest.count + extra) % 2 ^ 64 }
    hash := spanSeed
    journal := journal
    passTail := (s.passTail + 1) % passRing
    sheaf := sheaf }

/-- The completion under the split. A boundary at or below the last one elected declines. -/
def dualCompleteOne (s : Sink) (v : View) (endSpan : ℕ) (count1 : Option ℕ) (overlap : ℕ)
    (unsorted : Bool) (j1Run : Option Arrival) : Turn :=
  let elected := { s with boundaryTaken := max s.boundaryTaken endSpan }
  if ¬ s.boundaryTaken < endSpan then .next elected
  else
    let p0 := partitionLen s.journal endSpan
    match j1Stop v s.j1Consumed endSpan j1Run with
    | none => .panic
    | some j1p =>
        let window := (v.j1.take j1p).drop s.j1Consumed
        let staged := staging unsorted (s.journal.leaves.take p0) window
        if j1Cap < staged.length then .panic
        else
          let hash := mergeHash s.hash staged
          let extra := (count1.map (· - overlap)).getD 0
          let laneK := s.sheaf.laneK + (window.map fun l => l.seg.1.toNat).sum
          let sheaf := sheafCheckAndRoll { s.sheaf with laneK := laneK } v.lanes
          .next { elected.snapshot hash extra (retireUpto s.journal endSpan) sheaf with
            j1Consumed := j1p }

/-- The completion with one fold. -/
def monoComplete (s : Sink) (v : View) (endSpan : ℕ) : Turn :=
  let flushed := s.journal.flushUpto s.hash endSpan
  .next (s.snapshot flushed.1 0 flushed.2 (sheafCheckAndRoll s.sheaf v.lanes))

/-- The other thread's count when the poison has ended the split. -/
def zombieCount (v : View) (passId : ℕ) : Option ℕ :=
  match v.poisonAt with
  | some (pp, pb) =>
      if pp = passId then some (v.oddTotalsBefore pb)
      else if v.armedPass ≤ passId ∧ passId < pp then some (v.oddTotalsBefore v.scriptN)
      else none
  | none => none

/-- One turn of `complete_boundaries`. -/
def turn (s : Sink) (v : View) : Turn :=
  if s.passTail = s.passHead then .stop
  else if s.oldest.done then .stop
  else
    match s.oldest.endSpan with
    | none => .stop
    | some endSpan =>
        if s.gate && decide (0 < v.armedPass) then
          if s.dualArmed then
            if s.foldPos < laneEndAt endSpan 0 then .stop
            else if v.armedPass ≤ s.oldest.passId then
              if v.p1Fold < laneEndAt endSpan 1 then .stop
              else
                match v.arrivalFull s.oldest.passId with
                | some a => s.dualCompleteOne v endSpan (some a.count) 0 false (some a)
                | none => s.dualCompleteOne v endSpan (some s.dualC1Pass) 0 false none
            else if v.p1Fold < laneEndAt endSpan 1 then .stop
            else s.dualCompleteOne v endSpan none 0 false none
          else if s.foldPos < laneEndAt endSpan 0 ∨ s.z1FoldPos < laneEndAt endSpan 1 then .stop
          else s.dualCompleteOne v endSpan (zombieCount v s.oldest.passId) 0 true none
        else if endSpan ≤ s.foldPos then s.monoComplete v endSpan
        else .stop

end Sink

end HftProj.Testkit.Boundaries
