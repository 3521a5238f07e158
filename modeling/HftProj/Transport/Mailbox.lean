import HftProj.Lib.TurnRing
import HftProj.Transport.Render

/-!
# The mailbox and its producer

A dedicated thread polls the rendered transport ahead of its consumer and publishes slices of the
master entry array by reference, in turn, on a ring of records. Each load, store, swap or futex
call of a shared word is a step. The end of a pass is a publication of its own. Modelled is the
path by reference, without the incremental patches, the affine ledger and the telemetry.
-/

namespace HftProj.Transport.Pipeline

open HftProj.Lib HftProj.Lib.TurnRing HftProj.Protocol.Moldudp64

def ENTRY_CAP : ℕ := 1024

/-- A publication's slice of the master and the driver's clock; `len = 0` is the end of stream. -/
structure PubMeta where
  len : ℕ
  rxStart : ℕ
  clock : ℕ
  deriving DecidableEq

def PubMeta.EMPTY : PubMeta := ⟨0, 0, 0⟩

inductive Cmd where
  | run
  | reset
  | shutdown
  deriving DecidableEq

/-- What the construction settles: the depth, and the arms that depend on each other. -/
structure Config where
  shift : ℕ
  shift_range : 4 ≤ shift ∧ shift ≤ 8
  autoFn : Option (ℕ → SessionId)
  elision : Bool
  schedReplay : Bool
  prearm : Bool
  elision_armed : elision = true → autoFn.isSome = true
  replay_armed : schedReplay = true → elision = true
  prearm_armed : prearm = true → schedReplay = true

namespace Config

def nbuf (c : Config) : ℕ := 2 ^ c.shift

/-- The buffer of a turn. -/
def slot (c : Config) (turn : ℕ) : ℕ := turn &&& (c.nbuf - 1)

/-- How often the buffer has been used before. -/
def needed (c : Config) (turn : ℕ) : ℕ := turn >>> c.shift

end Config

/-- The shared words. The three waiters say which thread sleeps on which futex word. -/
structure Mailbox where
  ring : Words PubMeta
  consParked : Bool
  prodParked : Bool
  cmd : Cmd
  shutdown : Bool
  wake : ℕ
  pubWake : ℕ
  resetSession : SessionId
  resetCnt : ℕ
  resetAckTurn : ℕ
  resetAckCnt : ℕ
  autoPass : ℕ
  autoBakeTurn : Option ℕ
  autoSession : SessionId
  autoEosTurn : Option ℕ
  rxTurn : ℕ
  pubWaiter : Bool
  consWaiter : Bool
  rxWaiter : Bool

/-- The schedule replay. -/
inductive RxSched where
  | off
  | recording (rows : List PubMeta)
  | play (rows : List PubMeta) (i : ℕ)
  deriving DecidableEq

/-- `play_pos`. -/
def RxSched.playPos : RxSched → Bool × Bool
  | .play rows i => (decide (i < rows.length), i == rows.length)
  | _ => (false, false)

/-- The four waits for a buffer to be returned. -/
inductive Wait where
  | buffer
  | marker
  | gate
  | advance
  deriving DecidableEq

/-- A wait that serves resets and marks the producer parked. -/
def Wait.yields : Wait → Bool
  | .buffer | .gate => true
  | .marker | .advance => false

/-- Where a wait is; behind `observe` with the wake word that it has seen. -/
inductive WaitPc where
  | load
  | shutdown
  | cmd
  | mark
  | observe
  | recheck (observed : ℕ)
  | recheckCmd (observed : ℕ)
  | recheckShutdown (observed : ℕ)
  | sleep (observed : ℕ)
  | asleep
  | clear
  | served
  deriving DecidableEq

inductive RxPc where
  | top
  | ackTurn (parked : Bool)
  | ackCnt (parked : Bool)
  | ackRun (parked : Bool)
  | ackBump (parked : Bool)
  | ackWake (parked : Bool)
  | topShutdown
  | wait (w : Wait) (pc : WaitPc)
  | write
  | store
  | turnStore
  | swap
  | pubBump
  | pubWakeup
  | markWrite
  | markStore
  | markEos
  | markTurn
  | markSwap
  | markBump
  | markWakeup
  | bakeTurn
  | bakePass
  | advBump
  | advWake
  | park
  | parkShutdown
  | parkObserve
  | parkCmd (observed : ℕ)
  | parkSleep (observed : ℕ)
  | parkAsleep
  | exited
  deriving DecidableEq

/-- The producer's thread. -/
structure Rx where
  inner : ReplayTransport
  pc : RxPc
  turn : ℕ
  pass : ℕ
  passStart : ℕ
  sched : RxSched
  prearm : Bool
  served : ℕ
  idx : ℕ
  eos : Bool
  spins : ℕ
  marked : Bool

namespace Rx

variable (c : Config)

/-- Go on at a program point. -/
def goto (rx : Rx) (pc : RxPc) : Rx := { rx with pc := pc }

/-- The serve of a reset: both arms are disarmed and the session is baked. -/
def serve (rx : Rx) (session : SessionId) (parked : Bool) : Rx :=
  { rx with
    sched := .off
    prearm := false
    inner := rx.inner.reset session
    idx := 0
    served := rx.served + 1
    pc := .ackTurn parked }

/-- Frames are polled until another batch may not fit or none is left: how many, the clock of
the last poll, and whether the pass is at its end. -/
@[grind =]
def accumulate (t : ReplayTransport) (acc clock : ℕ) : ReplayTransport × ℕ × ℕ × Bool :=
  if acc + ReplayTransport.BATCH_CAPACITY ≤ ENTRY_CAP then
    let r := t.pollEvents none ReplayTransport.BATCH_CAPACITY
    if r.2.length = 0 then (r.1, acc, clock, true)
    else accumulate r.1 (acc + r.2.length) r.1.virtualClock
  else (t, acc, clock, false)
termination_by ENTRY_CAP - acc
decreasing_by
  rename_i hfits hsome
  rw [ENTRY_CAP, ReplayTransport.BATCH_CAPACITY] at hfits
  rw [ENTRY_CAP]
  have hpos : 0 < (t.pollEvents none ReplayTransport.BATCH_CAPACITY).2.length :=
    Nat.pos_of_ne_zero hsome
  omega

/-- The next publication: the next row of the frozen schedule, or a live walk, which a recording
keeps. -/
def produce (rx : Rx) : Rx × PubMeta :=
  match rx.sched with
  | .play rows i =>
      if h : i < rows.length then ({ rx with sched := .play rows (i + 1) }, rows[i])
      else (rx, .EMPTY)
  | sched =>
      let r := accumulate rx.inner 0 0
      let pub : PubMeta := ⟨r.2.1, rx.idx, r.2.2.1⟩
      let sched := match sched with
        | .recording rows => .recording (rows ++ [pub])
        | sched => sched
      ({ rx with inner := r.1, idx := rx.idx + r.2.1, eos := r.2.2.2, sched := sched }, pub)

/-- The freeze at the first end of stream: an empty recording disarms. -/
def freeze (rx : Rx) : Rx :=
  match rx.sched with
  | .recording [] => { rx with sched := .off, prearm := false }
  | .recording rows => { rx with sched := .play rows 0 }
  | _ => rx

/-- At the top of a wait's loop. -/
def waitTop (rx : Rx) (w : Wait) : Rx :=
  rx.goto (.wait w (if w = .advance then .shutdown else .load))

def await (rx : Rx) (w : Wait) : Rx := { rx with spins := 0, marked := false }.waitTop w

/-- The marker's gate: under the early advance it lands only after the pass's first turn has
been returned. -/
def enterGate (rx : Rx) : Rx :=
  if rx.prearm ∧ rx.passStart < rx.turn then rx.await .gate else rx.freeze.goto .markWrite

def enterMarker (rx : Rx) : Rx :=
  if c.nbuf ≤ rx.turn then rx.await .marker else rx.enterGate

/-- Behind the commands: the end of the frozen schedule is the marker's turn, any other turn is a
publication's. -/
def enterTurn (rx : Rx) : Rx :=
  let rx := { rx with eos := rx.sched.playPos.2 }
  if rx.eos then rx.enterMarker c
  else if c.nbuf ≤ rx.turn then rx.await .buffer
  else rx.goto .write

/-- Behind a publication. -/
def afterPublication (rx : Rx) : Rx :=
  let rx := { rx with turn := rx.turn + 1 }
  if rx.eos then rx.enterMarker c else rx.goto .top

/-- The bake of the next pass. -/
def bake (rx : Rx) (f : ℕ → SessionId) : Rx :=
  let session := f (rx.pass + 1)
  { rx with
    inner := if c.elision then rx.inner.resetCursors session else rx.inner.reset session
    idx := 0
    sched := match rx.sched with
      | .play rows _ => .play rows 0
      | sched => sched
    pass := rx.pass + 1
    passStart := rx.turn
    pc := .bakeTurn }

/-- Behind the marker: the next pass is baked at once, or when the marker has been returned; a
transport without a program parks. -/
def afterMarker (rx : Rx) : Rx :=
  let rx := { rx with turn := rx.turn + 1 }
  match c.autoFn with
  | some f => if rx.prearm then rx.bake c f else rx.await .advance
  | none => rx.goto .park

/-! ## Waits -/

/-- The buffer that a wait is for, and how often it must have been returned. -/
def awaited (rx : Rx) : Wait → ℕ × ℕ
  | .buffer | .marker => (c.slot rx.turn, c.needed rx.turn)
  | .gate => (c.slot rx.passStart, c.needed rx.passStart + 1)
  | .advance => (c.slot (rx.turn - 1), c.needed (rx.turn - 1) + 1)

def returned (m : Mailbox) (rx : Rx) (w : Wait) : Bool :=
  (rx.awaited c w).2 ≤ m.ring.freed (rx.awaited c w).1

/-- Behind a wait. -/
def passed (rx : Rx) : Wait → Rx
  | .buffer => rx.goto .write
  | .marker => rx.enterGate
  | .gate => rx.freeze.goto .markWrite
  | .advance =>
      match c.autoFn with
      | some f => rx.bake c f
      | none => rx.goto .park

/-- A wait that serves resets looks at the command once more when it is over. -/
def leave (rx : Rx) (w : Wait) : Rx := rx.goto (.wait w (if rx.marked then .clear else .served))

/-- A few polite spins, then a park. -/
def lap (rx : Rx) (w : Wait) : Rx :=
  if rx.spins < 6 then { rx with spins := rx.spins + 1 }.waitTop w
  else rx.goto (.wait w (if w.yields ∧ ¬rx.marked then .mark else .observe))

def waitStep (m : Mailbox) (rx : Rx) (w : Wait) : WaitPc → Option (Mailbox × Rx)
  | .load =>
      some (m,
        if rx.returned c m w then (if w.yields then rx.leave w else rx.passed c w)
        else if w = .advance then rx.lap w
        else rx.goto (.wait w .shutdown))
  | .shutdown =>
      some (m,
        if m.shutdown then rx.goto .exited
        else if w = .advance then rx.goto (.wait w .load)
        else if w.yields then rx.goto (.wait w .cmd)
        else rx.lap w)
  | .cmd => some (m, if m.cmd = .reset then rx.leave w else rx.lap w)
  | .mark =>
      some ({ m with prodParked := true }, { rx with marked := true }.goto (.wait w .observe))
  | .observe => some (m, rx.goto (.wait w (.recheck m.wake)))
  | .recheck o =>
      some (m,
        if rx.returned c m w then rx.waitTop w
        else rx.goto (.wait w (if w.yields then .recheckCmd o else .recheckShutdown o)))
  | .recheckCmd o =>
      some (m, if m.cmd = .reset then rx.waitTop w else rx.goto (.wait w (.recheckShutdown o)))
  | .recheckShutdown o =>
      some (m, if m.shutdown then rx.waitTop w else rx.goto (.wait w (.sleep o)))
  | .sleep o =>
      if m.wake = o then some ({ m with rxWaiter := true }, rx.goto (.wait w .asleep))
      else some (m, rx.waitTop w)
  | .asleep => if m.rxWaiter then none else some (m, rx.waitTop w)
  | .clear => some ({ m with prodParked := false }, rx.goto (.wait w .served))
  | .served => some (m, if m.cmd = .reset then rx.goto .top else rx.passed c w)

/-! ## The thread -/

/-- A step of the producer. -/
def step (m : Mailbox) (rx : Rx) : Option (Mailbox × Rx) :=
  match rx.pc with
  | .top =>
      some (m,
        match m.cmd with
        | .shutdown => rx.goto .exited
        | .reset => rx.serve m.resetSession false
        | .run => rx.goto .topShutdown)
  | .ackTurn parked => some ({ m with resetAckTurn := rx.turn }, rx.goto (.ackCnt parked))
  | .ackCnt parked => some ({ m with resetAckCnt := rx.served }, rx.goto (.ackRun parked))
  | .ackRun parked => some ({ m with cmd := .run }, rx.goto (.ackBump parked))
  | .ackBump parked => some ({ m with wake := m.wake + 1 }, rx.goto (.ackWake parked))
  | .ackWake parked =>
      some ({ m with consWaiter := false }, rx.goto (if parked then .top else .topShutdown))
  | .topShutdown => some (m, if m.shutdown then rx.goto .exited else rx.enterTurn c)
  | .wait w pc => rx.waitStep c m w pc
  | .write =>
      let r := rx.produce
      some ({ m with ring := m.ring.put (c.slot rx.turn) r.2 }, r.1.goto .store)
  | .store => some ({ m with ring := m.ring.mark (c.slot rx.turn) rx.turn }, rx.goto .turnStore)
  | .turnStore => some ({ m with rxTurn := rx.turn + 1 }, rx.goto .swap)
  | .swap =>
      some ({ m with consParked := false },
        if m.consParked then rx.goto .pubBump else rx.afterPublication c)
  | .pubBump => some ({ m with pubWake := m.pubWake + 1 }, rx.goto .pubWakeup)
  | .pubWakeup => some ({ m with pubWaiter := false }, rx.afterPublication c)
  | .markWrite =>
      some ({ m with ring := m.ring.put (c.slot rx.turn) .EMPTY }, rx.goto .markStore)
  | .markStore => some ({ m with ring := m.ring.mark (c.slot rx.turn) rx.turn }, rx.goto .markEos)
  | .markEos => some ({ m with autoEosTurn := some rx.turn }, rx.goto .markTurn)
  | .markTurn => some ({ m with rxTurn := rx.turn + 1 }, rx.goto .markSwap)
  | .markSwap =>
      some ({ m with consParked := false },
        if m.consParked then rx.goto .markBump else rx.afterMarker c)
  | .markBump => some ({ m with pubWake := m.pubWake + 1 }, rx.goto .markWakeup)
  | .markWakeup => some ({ m with pubWaiter := false }, rx.afterMarker c)
  | .bakeTurn =>
      some ({ m with
        autoSession := (c.autoFn.map fun f => f rx.pass).getD m.autoSession
        autoBakeTurn := some (rx.turn - 1) }, rx.goto .bakePass)
  | .bakePass => some ({ m with autoPass := rx.pass }, rx.goto .advBump)
  | .advBump => some ({ m with wake := m.wake + 1 }, rx.goto .advWake)
  | .advWake => some ({ m with consWaiter := false }, rx.goto .top)
  | .park =>
      some (m,
        match m.cmd with
        | .shutdown => rx.goto .exited
        | .reset => rx.serve m.resetSession true
        | .run => rx.goto .parkShutdown)
  | .parkShutdown => some (m, if m.shutdown then rx.goto .exited else rx.goto .parkObserve)
  | .parkObserve => some (m, rx.goto (.parkCmd m.wake))
  | .parkCmd o => some (m, if m.cmd = .run then rx.goto (.parkSleep o) else rx.goto .park)
  | .parkSleep o =>
      if m.wake = o then some ({ m with rxWaiter := true }, rx.goto .parkAsleep)
      else some (m, rx.goto .park)
  | .parkAsleep => if m.rxWaiter then none else some (m, rx.goto .park)
  | .exited => none

/-- A return from a futex wait without a wake, by a timeout or none at all. -/
def spurious (m : Mailbox) (rx : Rx) : Option (Mailbox × Rx) :=
  match rx.pc with
  | .wait w .asleep => some ({ m with rxWaiter := false }, rx.waitTop w)
  | .parkAsleep => some ({ m with rxWaiter := false }, rx.goto .park)
  | _ => none

end Rx

end HftProj.Transport.Pipeline
