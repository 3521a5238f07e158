import HftProj.Lib.Transition
import HftProj.Transport.Mailbox

/-!
# The pipelined transport

The consumer's calls, one shared word at a time, beside the producer. A group hands out several
publications at once and returns their buffers with the next call; the selector points at one of
them. The self-serve mode, in which no producer runs, is left out.
-/

namespace HftProj.Transport.Pipeline

open HftProj.Lib HftProj.Lib.TurnRing HftProj.Protocol.Moldudp64

def MAX_GROUP : ℕ := 32

inductive Call where
  | nextBatch
  | nextGroup (k : ℕ)
  | selectGroupBatch (j : ℕ)
  | reset (session : SessionId)
  | resetPass (pass : ℕ) (session : SessionId)
  | drop
  deriving DecidableEq

/-- Where the consumer is; a call that first returns buffers, or waits, comes along. -/
inductive ConsPc where
  | idle
  | drain (call : Call)
  | drainFlag (call : Call)
  | drainSwap (call : Call)
  | drainBump (call : Call)
  | drainWakeup (call : Call)
  | load (call : Call)
  | swap (call : Call)
  | observe (call : Call)
  | recheck (call : Call) (observed : ℕ)
  | sleep (call : Call) (observed : ℕ)
  | asleep (call : Call)
  | clear (call : Call)
  | len (call : Call)
  | sweep (width n : ℕ)
  | sweepLen (width n : ℕ)
  | markFree (group : Bool)
  | markBump (group : Bool)
  | markWakeup (group : Bool)
  | resetCnt
  | resetCmd
  | resetBump
  | resetWakeup
  | ack
  | ackObserve
  | ackRecheck (observed : ℕ)
  | ackSleep (observed : ℕ)
  | ackAsleep
  | ackTurn
  | ackFree (turn stop : ℕ)
  | pass (target : ℕ) (session : SessionId)
  | passBake (target baked : ℕ) (session : SessionId)
  | passTurn (target : ℕ) (session : SessionId)
  | passEos (target rxTurn : ℕ) (session : SessionId)
  | passFree (target stop : ℕ) (session : SessionId)
  | passObserve (target : ℕ) (session : SessionId)
  | passRecheck (target observed : ℕ) (session : SessionId)
  | passSleep (target observed : ℕ) (session : SessionId)
  | passAsleep (target : ℕ) (session : SessionId)
  | dropCmd
  | dropShutdown
  | dropBump
  | dropWakeup
  | dropped
  | failed
  deriving DecidableEq

/-- The consumer; `pending` holds the deferred turns, `cap` the ceiling of an abandon. -/
structure Cons where
  pc : ConsPc
  turn : ℕ
  cur : Option ℕ
  resets : ℕ
  atEos : Bool
  pending : List ℕ
  groupLo : ℕ
  groupN : ℕ
  spins : ℕ
  flagged : Bool
  cap : Option ℕ

/-- Both threads; no step reads the history: the records published, the number of buffers
returned, and the turns consumed with the records read for them. -/
structure State where
  mail : Mailbox
  rx : Rx
  cons : Cons
  log : List PubMeta
  back : ℕ
  reads : List (ℕ × PubMeta)

namespace Cons

variable (c : Config)

def goto (s : Cons) (pc : ConsPc) : Cons := { s with pc := pc }

/-- Enter the wait for the turn's publication. -/
def await (s : Cons) (call : Call) : Cons :=
  { s with spins := 0, flagged := false, pc := .load call }

/-- The words behind `free_pending`. -/
def afterDrain (m : Mailbox) (s : Cons) : Call → Mailbox × Cons
  | .nextBatch => (m, s.await .nextBatch)
  | .nextGroup k => (m, s.await (.nextGroup k))
  | .selectGroupBatch _ => (m, s.goto .idle)
  | .reset session =>
      ({ m with resetSession := session }, { s with resets := s.resets + 1, pc := .resetCnt })
  | .resetPass target session =>
      (m, { s with
        resets := s.resets + 1
        cap := if s.atEos then some s.turn else none
        atEos := false
        spins := 0
        pc := .pass target session })
  | .drop => (m, s.goto .idle)

/-- The start of a call. An assertion tells the transports with a program from those without. -/
def start (s : Cons) : Call → Cons
  | .nextBatch => s.goto (.drain .nextBatch)
  | .nextGroup k => s.goto (.drain (.nextGroup (max 1 (min k MAX_GROUP))))
  | .selectGroupBatch j => if j < s.groupN then { s with cur := some (s.groupLo + j) } else s
  | .reset session => s.goto (if c.autoFn.isNone then .drain (.reset session) else .failed)
  | .resetPass target session =>
      s.goto (if c.autoFn.isSome then .drain (.resetPass target session) else .failed)
  | .drop => s.goto .dropCmd

/-- The call is over with the group's turns handed out. -/
def finish (s : Cons) (n : ℕ) : Cons :=
  { s with
    pending := List.range' s.turn (n - 1)
    groupLo := s.turn
    groupN := n
    cur := some (s.turn + (n - 1))
    turn := s.turn + n
    atEos := false
    pc := .idle }

end Cons

namespace State

variable (c : Config)

/-- Return a turn's buffer. -/
def give (s : State) (turn : ℕ) (cons : Cons) : State :=
  { s with
    mail := { s.mail with ring := s.mail.ring.give (c.slot turn) }
    back := s.back + 1
    cons := cons }

def withCons (s : State) (cons : Cons) : State := { s with cons := cons }

def withMail (s : State) (m : Mailbox) (cons : Cons) : State := { s with mail := m, cons := cons }

/-- What the record of a turn's buffer says. -/
def record (s : State) (turn : ℕ) : PubMeta := s.mail.ring.slots (c.slot turn)

/-- A step of the wait for a publication. -/
def loadStep (s : State) (call : Call) : State :=
  let k := s.cons
  if s.mail.ring.filled (c.slot k.turn) = some k.turn then
    s.withCons (k.goto (if k.flagged then .clear call else .len call))
  else if k.spins < 512 then s.withCons { k with spins := k.spins + 1 }
  else s.withCons { k with
    spins := k.spins + 1
    pc := if k.flagged then .observe call else .swap call }

/-- The publication has landed: a marker, a batch, or the first of a group. -/
def lenStep (s : State) (call : Call) : State :=
  let k := s.cons
  let pub := s.record c k.turn
  let group := match call with
    | .nextGroup _ => true
    | _ => false
  if pub.len = 0 then
    { s with
      cons := { k with turn := k.turn + 1, pc := .markFree group }
      reads := s.reads ++ [(k.turn, pub)] }
  else
    match call with
    | .nextGroup width => { s with
        cons := k.goto (.sweep width 1)
        reads := s.reads ++ [(k.turn, pub)] }
    | _ => { s with
        cons := { k with turn := k.turn + 1, cur := some k.turn, atEos := false, pc := .idle }
        reads := s.reads ++ [(k.turn, pub)] }

/-- One iteration of the loop of `reset_pass`: the pass is baked and its marker is behind the
cursor, or the abandoned turns are returned up to the ceiling. -/
def passStep (s : State) (target baked : ℕ) (session : SessionId) : State :=
  let k := s.cons
  if s.mail.autoBakeTurn.all (· < k.turn) then
    s.withCons (k.goto (if baked = target ∧ s.mail.autoSession = session then .idle else .failed))
  else s.withCons (k.goto (.passTurn target session))

/-- The ceiling is locked at the marker of the abandoned pass when that has landed. -/
def ceiling (m : Mailbox) (k : Cons) : Option ℕ :=
  match k.cap, m.autoEosTurn with
  | none, some eos => if k.turn ≤ eos then some (eos + 1) else none
  | cap, _ => cap

/-- A step of the consumer. -/
def consStep (s : State) : Option State :=
  let k := s.cons
  let m := s.mail
  match k.pc with
  | .idle => none
  | .drain call =>
      match k.pending, k.cur with
      | turn :: pending, _ => some (s.give c turn { k with pending := pending })
      | [], some turn => some (s.give c turn { k with cur := none, pc := .drainFlag call })
      | [], none => let r := k.afterDrain m call; some (s.withMail r.1 r.2)
  | .drainFlag call =>
      if m.prodParked then some (s.withCons (k.goto (.drainSwap call)))
      else let r := k.afterDrain m call; some (s.withMail r.1 r.2)
  | .drainSwap call =>
      if m.prodParked then
        some (s.withMail { m with prodParked := false } (k.goto (.drainBump call)))
      else let r := k.afterDrain m call; some (s.withMail r.1 r.2)
  | .drainBump call =>
      some (s.withMail { m with wake := m.wake + 1 } (k.goto (.drainWakeup call)))
  | .drainWakeup call =>
      let r := k.afterDrain { m with rxWaiter := false } call
      some (s.withMail r.1 r.2)
  | .load call => some (s.loadStep c call)
  | .swap call =>
      some (s.withMail { m with consParked := true }
        { k with flagged := true, pc := .observe call })
  | .observe call => some (s.withCons (k.goto (.recheck call m.pubWake)))
  | .recheck call o =>
      some (s.withCons
        (if m.ring.filled (c.slot k.turn) = some k.turn then { k with spins := 0, pc := .load call }
        else k.goto (.sleep call o)))
  | .sleep call o =>
      if m.pubWake = o then some (s.withMail { m with pubWaiter := true } (k.goto (.asleep call)))
      else some (s.withCons { k with spins := 0, pc := .load call })
  | .asleep call =>
      if m.pubWaiter then none else some (s.withCons { k with spins := 0, pc := .load call })
  | .clear call => some (s.withMail { m with consParked := false } (k.goto (.len call)))
  | .len call => some (s.lenStep c call)
  | .sweep width n =>
      if n < width ∧ m.ring.filled (c.slot (k.turn + n)) = some (k.turn + n) then
        some (s.withCons (k.goto (.sweepLen width n)))
      else some (s.withCons (k.finish n))
  | .sweepLen width n =>
      let pub := s.record c (k.turn + n)
      if pub.len = 0 then some (s.withCons (k.finish n))
      else some { s with
        cons := k.goto (.sweep width (n + 1))
        reads := s.reads ++ [(k.turn + n, pub)] }
  | .markFree group => some (s.give c (k.turn - 1) (k.goto (.markBump group)))
  | .markBump group =>
      some (s.withMail { m with wake := m.wake + 1 } (k.goto (.markWakeup group)))
  | .markWakeup group =>
      some (s.withMail { m with rxWaiter := false }
        { k with
          atEos := true
          groupN := if group then 0 else k.groupN
          pc := .idle })
  | .resetCnt => some (s.withMail { m with resetCnt := k.resets } (k.goto .resetCmd))
  | .resetCmd => some (s.withMail { m with cmd := .reset } (k.goto .resetBump))
  | .resetBump => some (s.withMail { m with wake := m.wake + 1 } (k.goto .resetWakeup))
  | .resetWakeup =>
      some (s.withMail { m with rxWaiter := false } { k with spins := 0, pc := .ack })
  | .ack =>
      if k.resets ≤ m.resetAckCnt then some (s.withCons (k.goto .ackTurn))
      else if 4 < k.spins then some (s.withCons (k.goto .ackObserve))
      else some (s.withCons { k with spins := k.spins + 1 })
  | .ackObserve => some (s.withCons (k.goto (.ackRecheck m.wake)))
  | .ackRecheck o =>
      some (s.withCons (k.goto (if m.resetAckCnt < k.resets then .ackSleep o else .ack)))
  | .ackSleep o =>
      if m.wake = o then some (s.withMail { m with consWaiter := true } (k.goto .ackAsleep))
      else some (s.withCons (k.goto .ack))
  | .ackAsleep => if m.consWaiter then none else some (s.withCons (k.goto .ack))
  | .ackTurn => some (s.withCons (k.goto (.ackFree k.turn m.resetAckTurn)))
  | .ackFree turn stop =>
      if turn < stop then some (s.give c turn (k.goto (.ackFree (turn + 1) stop)))
      else some (s.withCons { k with turn := stop, pc := .idle })
  | .pass target session =>
      some (s.withCons (k.goto
        (if target ≤ m.autoPass then .passBake target m.autoPass session
        else .passTurn target session)))
  | .passBake target baked session => some (s.passStep target baked session)
  | .passTurn target session => some (s.withCons (k.goto (.passEos target m.rxTurn session)))
  | .passEos target rxTurn session =>
      let cap := ceiling m k
      some (s.withCons { k with
        cap := cap
        pc := .passFree target ((cap.map (min rxTurn)).getD rxTurn) session })
  | .passFree target stop session =>
      if k.turn < stop then some (s.give c k.turn { k with turn := k.turn + 1 })
      else if 4 < k.spins then some (s.withCons (k.goto (.passObserve target session)))
      else some (s.withCons { k with spins := k.spins + 1, pc := .pass target session })
  | .passObserve target session => some (s.withCons (k.goto (.passRecheck target m.wake session)))
  | .passRecheck target o session =>
      some (s.withCons (k.goto
        (if m.autoPass < target then .passSleep target o session else .pass target session)))
  | .passSleep target o session =>
      if m.wake = o then
        some (s.withMail { m with consWaiter := true } (k.goto (.passAsleep target session)))
      else some (s.withCons (k.goto (.pass target session)))
  | .passAsleep target session =>
      if m.consWaiter then none else some (s.withCons (k.goto (.pass target session)))
  | .dropCmd => some (s.withMail { m with cmd := .shutdown } (k.goto .dropShutdown))
  | .dropShutdown => some (s.withMail { m with shutdown := true } (k.goto .dropBump))
  | .dropBump => some (s.withMail { m with wake := m.wake + 1 } (k.goto .dropWakeup))
  | .dropWakeup => some (s.withMail { m with rxWaiter := false } (k.goto .dropped))
  | .dropped => none
  | .failed => none

/-- A return from a futex wait without a wake, by a timeout or none at all. -/
def consReturn (s : State) : Option State :=
  let k := s.cons
  match k.pc with
  | .asleep call =>
      some (s.withMail { s.mail with pubWaiter := false } { k with spins := 0, pc := .load call })
  | .ackAsleep => some (s.withMail { s.mail with consWaiter := false } (k.goto .ack))
  | .passAsleep target session =>
      some (s.withMail { s.mail with consWaiter := false } (k.goto (.pass target session)))
  | _ => none

/-- A step of the producer; the mark of a slot publishes its record. -/
def rxStep (s : State) : Option State :=
  (s.rx.step c s.mail).map fun r =>
    { s with
      mail := r.1
      rx := r.2
      log := s.log ++
        if s.rx.pc = .store ∨ s.rx.pc = .markStore then [s.record c s.rx.turn] else [] }

end State

/-- One step of a thread, a return from a futex wait that nobody woke, or a call. -/
inductive Act where
  | rx
  | rxReturn
  | cons
  | consReturn
  | call (call : Call)
  deriving DecidableEq

def step (c : Config) (s : State) : Act → Option State
  | .rx => s.rxStep c
  | .rxReturn => (s.rx.spurious s.mail).map fun r => { s with mail := r.1, rx := r.2 }
  | .cons => s.consStep c
  | .consReturn => s.consReturn
  | .call call => if s.cons.pc = .idle then some (s.withCons (s.cons.start c call)) else none

/-- A transport just constructed. -/
def init (c : Config) (inner : ReplayTransport) : State where
  mail :=
    { ring := ⟨fun _ => .EMPTY, fun _ => none, fun _ => 0⟩
      consParked := false
      prodParked := false
      cmd := .run
      shutdown := false
      wake := 0
      pubWake := 0
      resetSession := SessionId.repeated 0
      resetCnt := 0
      resetAckTurn := 0
      resetAckCnt := 0
      autoPass := 0
      autoBakeTurn := none
      autoSession := inner.session
      autoEosTurn := none
      rxTurn := 0
      pubWaiter := false
      consWaiter := false
      rxWaiter := false }
  rx :=
    { inner := inner
      pc := .top
      turn := 0
      pass := 0
      passStart := 0
      sched := if c.schedReplay then .recording [] else .off
      prearm := c.prearm
      served := 0
      idx := 0
      eos := false
      spins := 0
      marked := false }
  cons :=
    { pc := .idle
      turn := 0
      cur := none
      resets := 0
      atEos := false
      pending := []
      groupLo := 0
      groupN := 0
      spins := 0
      flagged := false
      cap := none }
  log := []
  back := 0
  reads := []

end HftProj.Transport.Pipeline
