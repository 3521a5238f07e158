import HftProj.Lib.Threads
import HftProj.Testkit.OrderScan
import HftProj.Testkit.Registers

/-!
# The push resolve

Batches of decoded messages are bucketed by order reference, each bucket is a thread of
row-ops, and one segmented scan brings every position its thread's prefix. Positions that take
more than is left are re-anchored until none is left over; what is carried to the next batch
is the last state of each thread.
-/

namespace HftProj.Testkit.SigPush

open HftProj.Lib
open OrderScan

/-! ## Data -/

/-- One decoded wire message; no act for the types without an order. -/
structure Dec where
  t : ℕ
  act : Option Act
  loc : ℕ
  id : ℕ
  q : ℕ
  px : ℕ
  side : ℕ
  printable : ℕ
  newId : ℕ
  newQ : ℕ
  newPx : ℕ
  pos : ℕ
  deriving DecidableEq, Inhabited

/-- What the message says to the register file. -/
def Dec.msg (g : Dec) : Msg :=
  match g.act with
  | none => if g.t = 'P'.toNat ∨ g.t = 'Q'.toNat then .print g.px else .other
  | some .a => .add g.id g.side g.q g.px
  | some .e => .executed g.id g.q
  | some .c => .executedPx g.id g.q g.printable g.px
  | some .x => .cancel g.id g.q
  | some .d => .delete g.id
  | some .u => .replace g.id g.newId g.newQ g.newPx

/-- The register at a batch boundary. -/
structure Reg where
  sb : BitVec 64
  pi : BitVec 64
  rho : BitVec 64
  dead : Bool
  deriving DecidableEq

abbrev Carry := ℕ → Option Reg

inductive Role where
  | ref
  | uOld
  | uNew
  deriving DecidableEq, Inhabited

/-- What a row stands for: its message, its role and its thread. -/
structure Slot where
  gi : ℕ
  role : Role
  tid : ℕ
  deriving DecidableEq, Inhabited

def SCAN_B_MAX : ℕ := 512

/-! ## Buckets and rows -/

/-- The rows that a message asks for. -/
def slotsOf (gi : ℕ) (g : Dec) : List Slot :=
  match g.act with
  | some .u => [⟨gi, .uOld, g.id⟩, ⟨gi, .uNew, g.newId⟩]
  | some _ => [⟨gi, .ref, g.id⟩]
  | none => []

def msgAt (batch : List Dec) (gi : ℕ) : Dec := batch.getD gi default

def slots (batch : List Dec) : List Slot :=
  (List.range batch.length).flatMap fun gi => slotsOf gi (msgAt batch gi)

/-- Buckets in the order of their first row. -/
def buckets (batch : List Dec) : List (ℕ × List Slot) := Threads.bucketed Slot.tid (slots batch)

def rowOf (batch : List Dec) (s : Slot) : RowOp :=
  let g := msgAt batch s.gi
  match s.role with
  | .uNew => rowopUNew g.newQ g.newPx g.loc
  | .uOld => rowopOf .d 0 0 0 0
  | .ref =>
      if g.act = some .a then rowopOf .a g.q g.px g.loc (if g.side ≠ 'S'.toNat then 1 else 0)
      else rowopOf (g.act.getD .a) g.q g.px g.loc 0

/-- Births start a run of their own. -/
def isStart (batch : List Dec) (s : Slot) : Bool :=
  s.role = .uNew ∨ s.role = .ref ∧ (msgAt batch s.gi).act = some .a

/-- The rows of a bucket; interior flags are cleared except at births. -/
def bucketRows (batch : List Dec) : List Slot → List (Slot × RowOp)
  | [] => []
  | s :: rest => (s, rowOf batch s) :: rest.map fun s =>
      (s, if isStart batch s then rowOf batch s else { rowOf batch s with f := false })

def table (batch : List Dec) : List (Slot × RowOp) :=
  (buckets batch).flatMap fun b => bucketRows batch b.2

/-- A batch with its rows and the registers it is entered with. -/
structure Frame where
  batch : List Dec
  carry : Carry

namespace Frame

variable (fr : Frame)

def spec : List Slot := (table fr.batch).map Prod.fst

def rows : ℕ → RowOp := fun ri => ((table fr.batch).map Prod.snd).getD ri ROWOP_IDENTITY

def slot (ri : ℕ) : Slot := fr.spec.getD ri default

def msg (gi : ℕ) : Dec := msgAt fr.batch gi

/-- The row that a message is emitted at. -/
def emitRow (gi : ℕ) : ℕ := fr.spec.findIdx fun s => s.gi = gi ∧ s.role ≠ .uNew

/-- The row of the register that a U gives birth to. -/
def uNewRow (gi : ℕ) : ℕ := fr.spec.findIdx fun s => s.gi = gi ∧ s.role = .uNew

end Frame

/-! ## One round -/

/-- The largest run start up to a row. -/
@[grind =]
def threadStart (rows : ℕ → RowOp) : ℕ → ℕ
  | 0 => 0
  | ri + 1 => if (rows (ri + 1)).f then ri + 1 else threadStart rows ri

/-- The exclusive prefix at a row. -/
def preOf (scanned rows : ℕ → RowOp) (ri : ℕ) : RowOp :=
  if ri = 0 ∨ (rows ri).f then ROWOP_IDENTITY else scanned (ri - 1)

/-- The entries of the threads that replaces gave birth to, by their first row. -/
abbrev UEnt := ℕ → Option (Option (Lanes (BitVec 64)))

namespace Frame

variable (fr : Frame)

/-- The entry law. -/
def entOf (uEnt : UEnt) (t0 : ℕ) : Option (Lanes (BitVec 64)) :=
  match uEnt t0 with
  | some e => e
  | none =>
      let s := fr.slot t0
      match (fr.carry s.tid).filter fun r => !r.dead with
      | some r => some ![r.sb, r.pi, r.rho]
      | none =>
          if s.role = .ref ∧ (fr.msg s.gi).act = some .a then some fun _ => 0 else none

def scanned (rows : ℕ → RowOp) : ℕ → RowOp := orderScan fr.spec.length rows

/-- The closed-form state at a row. -/
def stateAt (rows : ℕ → RowOp) (uEnt : UEnt) (ri : ℕ) : Lanes (BitVec 64) :=
  (preOf (fr.scanned rows) rows ri).apply
    ((fr.entOf uEnt (threadStart rows ri)).getD fun _ => 0)

/-- The messages that are replaces, in message order. -/
def uOrder : List ℕ :=
  (List.range fr.batch.length).filter fun gi => (fr.msg gi).act = some .u

/-- One replace: the state of the old thread there, or nothing. -/
def uStep (rows : ℕ → RowOp) (uEnt : UEnt) (gi : ℕ) : UEnt :=
  let dRi := fr.emitRow gi
  let pre := preOf (fr.scanned rows) rows dRi
  let valid : Bool := !pre.dead && (fr.entOf uEnt (threadStart rows dRi)).isSome
  Function.update uEnt (fr.uNewRow gi)
    (some (if valid then some (fr.stateAt rows uEnt dRi) else none))

def uEnt (rows : ℕ → RowOp) : UEnt := fr.uOrder.foldl (fr.uStep rows) fun _ => none

/-- The emit of a message with an order at its row. -/
def out (rows : ℕ → RowOp) (gi : ℕ) (act : Act) : Resolved :=
  let g := fr.msg gi
  let ri := fr.emitRow gi
  emit (preOf (fr.scanned rows) rows ri) (fr.entOf (fr.uEnt rows) (threadStart rows ri)) act
    (if act = .u then g.newQ else g.q) (if act = .u then g.newPx else g.px)

/-- What a round writes into the columns of a message. -/
def write (rows : ℕ → RowOp) (gi : ℕ) (c : Token) : Token :=
  let g := fr.msg gi
  match g.act with
  | none =>
      if g.t = 'P'.toNat ∨ g.t = 'Q'.toNat then { c with sv := g.pos, pv := g.px } else c
  | some .a =>
      if g.side = 'S'.toNat then { c with d1 := BitVec.ofNat 64 g.q }
      else { c with d0 := BitVec.ofNat 64 g.q }
  | some act =>
      let o := fr.out rows gi act
      if o.ok = .anomaly then c
      else
        let printed : Token :=
          if act = .e then { c with sv := g.pos, pv := o.px }
          else if act = .c ∧ isPrint g.printable then { c with sv := g.pos, pv := g.px }
          else c
        { printed with d0 := o.db, d1 := o.da }

/-- Only the arms of the clamp policy re-anchor. -/
def clampArm (act : Act) : Bool := act = .e ∨ act = .c ∨ act = .x

/-- The message's row, where it takes more than is left and has not been rewritten. -/
def violation (rows : ℕ → RowOp) (rewritten : ℕ → Bool) (gi : ℕ) : Option ℕ :=
  match (fr.msg gi).act with
  | none => none
  | some .a => none
  | some act =>
      if (fr.out rows gi act).ok = .clamped ∧ clampArm act ∧ ¬rewritten (fr.emitRow gi) then
        some (fr.emitRow gi)
      else none

def violations (rows : ℕ → RowOp) (rewritten : ℕ → Bool) : List ℕ :=
  (List.range fr.batch.length).filterMap (fr.violation rows rewritten)

/-- The overwrite with the position's own identity and nothing left. -/
def reanchor (rows : ℕ → RowOp) (ri : ℕ) : RowOp :=
  let st := fr.stateAt rows (fr.uEnt rows) ri
  ⟨(rows ri).f, fun _ => false, ![st 0, st 1, 0], false⟩

/-! ## The rounds -/

/-- The rows, which of them have been rewritten, and the columns of the batch. -/
structure Round where
  rows : ℕ → RowOp
  rewritten : ℕ → Bool
  cols : ℕ → Token

def emitted (r : Round) : Round := { r with cols := fun gi => fr.write r.rows gi (r.cols gi) }

def reanchored (r : Round) : Round :=
  { r with
    rows := fun ri =>
      if ri ∈ fr.violations r.rows r.rewritten then fr.reanchor r.rows ri else r.rows ri
    rewritten := fun ri => r.rewritten ri || ri ∈ fr.violations r.rows r.rewritten }

/-- The re-anchor loop: emit, and go on while there are violations. -/
@[grind =]
def rounds : ℕ → Round → Except Fault Round
  | 0, _ => .error .endless
  | fuel + 1, r =>
      let r := fr.emitted r
      if fr.violations r.rows r.rewritten = [] then .ok r else rounds fuel (fr.reanchored r)

/-- A round begins with the built rows. -/
def begin (cols : ℕ → Token) : Round := ⟨fr.rows, fun _ => false, cols⟩

/-! ## What is banked and carried -/

/-- The counts of the final round. -/
def counts (rows : ℕ → RowOp) (gi : ℕ) : ℕ × ℕ × ℕ :=
  match (fr.msg gi).act with
  | none => (0, 0, 0)
  | some .a => (0, 0, 0)
  | some act =>
      match (fr.out rows gi act).ok with
      | .anomaly => (1, 0, 0)
      | .clean => (0, 0, 0)
      | .clamped => (0, 1, if act = .e then 1 else 0)

theorem counts_act {rows : ℕ → RowOp} {gi : ℕ} {act : Act} (hact : (fr.msg gi).act = some act)
    (hne : act ≠ .a) :
    fr.counts rows gi =
      match (fr.out rows gi act).ok with
      | .anomaly => (1, 0, 0)
      | .clean => (0, 0, 0)
      | .clamped => (0, 1, if act = .e then 1 else 0) := by
  rw [counts]
  simp only [hact] <;> rfl

/-- The last row of each bucket. -/
@[grind =]
def lasts : ℕ → List (ℕ × List Slot) → List (ℕ × ℕ)
  | _, [] => []
  | lo, (id, ss) :: rest => (id, lo + ss.length - 1) :: lasts (lo + ss.length) rest

/-- The register behind the last row of a bucket. -/
def regAt (rows : ℕ → RowOp) (last : ℕ) : Reg :=
  match fr.entOf (fr.uEnt rows) (threadStart rows last) with
  | none => ⟨0, 0, 0, true⟩
  | some e =>
      let comp := fr.scanned rows last
      let st := comp.apply e
      ⟨st 0, st 1, st 2, comp.dead⟩

/-- The carry update; each bucket reads its own register only. -/
def carried (rows : ℕ → RowOp) : Carry :=
  (lasts 0 (buckets fr.batch)).foldl
    (fun carry b => Function.update carry b.1 (some (fr.regAt rows b.2))) fr.carry

end Frame

/-- The anomalies, clamps and zero-remainder keeps of a resolve. -/
structure Counts where
  anomalies : ℕ
  clamps : ℕ
  zeroRemKeeps : ℕ
  deriving DecidableEq

/-- One batch: its columns, its counts and the registers behind it. A batch of more rows than
the scan holds reads outside it. -/
def resolveBatch (fr : Frame) : Except Fault (List Token × Counts × Carry) :=
  if fr.spec.length > SCAN_B_MAX then .error .outOfBounds
  else do
    let r ← fr.rounds (fr.spec.length + 1) (fr.begin fun _ => .empty)
    let gis := List.range fr.batch.length
    let counts := gis.map (fr.counts r.rows)
    return (gis.map r.cols,
      ⟨(counts.map fun c => c.1).sum, (counts.map fun c => c.2.1).sum,
        (counts.map fun c => c.2.2).sum⟩, fr.carried r.rows)

end HftProj.Testkit.SigPush
