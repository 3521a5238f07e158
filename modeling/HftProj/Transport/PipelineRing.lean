import HftProj.Transport.Pipeline

/-!
# The ring between the threads

Every turn in flight keeps its record, whichever way the two threads are interleaved. The producer
writes a slot only behind its earlier turns' returns, and the consumer returns the turns in order,
as long as every call that returns buffers finds the selector on the last turn handed out.
-/

namespace HftProj.Transport.Pipeline

open HftProj.Lib HftProj.Lib.TurnRing

namespace Config

variable (c : Config) (turn : ℕ)

theorem nbuf_pos : 0 < c.nbuf := Nat.two_pow_pos c.shift

theorem slot_eq : c.slot turn = turn % c.nbuf := Nat.and_two_pow_sub_one_eq_mod turn c.shift

theorem needed_eq : c.needed turn = turn / c.nbuf := Nat.shiftRight_eq_div_pow turn c.shift

end Config

/-! ## The producer -/

section Producer

/-- The mark of the turn has been stored. -/
def RxPc.after : RxPc → Bool
  | .turnStore | .swap | .pubBump | .pubWakeup => true
  | .markEos | .markTurn | .markSwap | .markBump | .markWakeup => true
  | _ => false

/-- The slot of the turn is the producer's. -/
def RxPc.owns : RxPc → Bool
  | .write | .store | .markWrite | .markStore | .wait .gate _ => true
  | _ => false

/-- A wait is over, by the return of a buffer or by a command. -/
def RxPc.leaving : RxPc → Bool
  | .wait _ .clear | .wait _ .served => true
  | _ => false

/-- Between the serve of a reset and the command's withdrawal. -/
def RxPc.acking : RxPc → Bool
  | .ackTurn _ | .ackCnt _ | .ackRun _ => true
  | _ => false

/-- What holds of the producer's program point when `back` turns have been returned. -/
structure Placed (c : Config) (cmd : Cmd) (back : ℕ) (rx : Rx) : Prop where
  owns : rx.pc.owns = true → rx.turn < back + c.nbuf
  leaving : rx.pc.leaving = true → rx.turn < back + c.nbuf ∨ cmd = .reset

variable {c : Config} {m m' : Mailbox} {rx rx' : Rx} {back : ℕ} {w : Wait}

theorem Placed.of_quiet {cmd : Cmd} (howns : rx.pc.owns = false)
    (hleaving : rx.pc.leaving = false) :
    Placed c cmd back rx :=
  ⟨fun h => absurd (howns.symm.trans h) Bool.false_ne_true,
    fun h => absurd (hleaving.symm.trans h) Bool.false_ne_true⟩

/-- The producer stands before the mark of a turn, at a point that it may be at. -/
structure Stands (c : Config) (cmd : Cmd) (back turn served : ℕ) (rx : Rx) : Prop where
  turn_eq : rx.turn = turn
  served_eq : rx.served = served
  before : rx.pc.after = false
  acked : rx.pc.acking = false
  placed : Placed c cmd back rx

namespace Stands

variable {cmd : Cmd} {turn served : ℕ}

theorem of_quiet (hturn : rx.turn = turn) (hserved : rx.served = served)
    (hafter : rx.pc.after = false) (hacked : rx.pc.acking = false)
    (howns : rx.pc.owns = false) (hleaving : rx.pc.leaving = false) :
    Stands c cmd back turn served rx :=
  ⟨hturn, hserved, hafter, hacked, .of_quiet howns hleaving⟩

theorem of_owned (hturn : rx.turn = turn) (hserved : rx.served = served)
    (hafter : rx.pc.after = false) (hacked : rx.pc.acking = false)
    (hleaving : rx.pc.leaving = false) (howned : turn < back + c.nbuf) :
    Stands c cmd back turn served rx :=
  ⟨hturn, hserved, hafter, hacked, fun _ => hturn.symm ▸ howned,
    fun h => absurd (hleaving.symm.trans h) Bool.false_ne_true⟩

end Stands

theorem leaving_top (w : Wait) (rx : Rx) : (rx.waitTop w).pc.leaving = false := by
  cases w <;> rfl

theorem freeze_eq (rx : Rx) :
    ∃ sched prearm, rx.freeze = { rx with sched := sched, prearm := prearm } := by
  rw [Rx.freeze]
  split
  · exact ⟨_, _, rfl⟩
  · exact ⟨_, _, rfl⟩
  · exact ⟨_, _, rfl⟩

section Entries

variable {cmd : Cmd} {turn served : ℕ} (hturn : rx.turn = turn) (hserved : rx.served = served)

include hturn hserved

theorem stands_waitTop (hw : w ≠ .gate) : Stands c cmd back turn served (rx.waitTop w) := by
  refine .of_quiet hturn hserved rfl rfl ?_ (leaving_top w rx)
  cases w with
  | gate => exact absurd rfl hw
  | _ => rfl

theorem stands_freeze (howned : turn < back + c.nbuf) :
    Stands c cmd back turn served (rx.freeze.goto .markWrite) := by
  obtain ⟨sched, prearm, hfreeze⟩ := freeze_eq rx
  rw [hfreeze]
  exact .of_owned hturn hserved rfl rfl rfl howned

theorem stands_enterGate (howned : turn < back + c.nbuf) :
    Stands c cmd back turn served rx.enterGate := by
  rw [Rx.enterGate]
  split
  · exact .of_owned hturn hserved rfl rfl rfl howned
  · exact stands_freeze hturn hserved howned

theorem stands_enterMarker : Stands c cmd back turn served (rx.enterMarker c) := by
  rw [Rx.enterMarker]
  split
  · exact stands_waitTop hturn hserved nofun
  · next hsmall =>
    apply stands_enterGate hturn hserved
    exact Nat.lt_add_left back (hturn ▸ Nat.lt_of_not_le hsmall)

theorem stands_enterTurn : Stands c cmd back turn served (rx.enterTurn c) := by
  rw [Rx.enterTurn]
  split
  · exact stands_enterMarker hturn hserved
  · split
    · exact stands_waitTop hturn hserved nofun
    · next hsmall =>
      exact .of_owned hturn hserved rfl rfl rfl
        (Nat.lt_add_left back (hturn ▸ Nat.lt_of_not_le hsmall))

theorem stands_afterPublication : Stands c cmd back (turn + 1) served (rx.afterPublication c) := by
  have hnext : rx.turn + 1 = turn + 1 := congrArg _ hturn
  rw [Rx.afterPublication]
  split
  · exact stands_enterMarker hnext hserved
  · exact .of_quiet hnext hserved rfl rfl rfl rfl

theorem stands_afterMarker : Stands c cmd back (turn + 1) served (rx.afterMarker c) := by
  have hnext : rx.turn + 1 = turn + 1 := congrArg _ hturn
  rw [Rx.afterMarker]
  split
  · split
    · exact .of_quiet hnext hserved rfl rfl rfl rfl
    · exact .of_quiet hnext hserved rfl rfl rfl rfl
  · exact .of_quiet hnext hserved rfl rfl rfl rfl

/-- Behind a wait whose buffer has been returned. -/
theorem stands_passed (howned : w ≠ .advance → turn < back + c.nbuf) :
    Stands c cmd back turn served (rx.passed c w) := by
  cases w with
  | buffer => exact .of_owned hturn hserved rfl rfl rfl (howned nofun)
  | marker => exact stands_enterGate hturn hserved (howned nofun)
  | gate => exact stands_freeze hturn hserved (howned nofun)
  | advance =>
      rw [Rx.passed]
      split
      · exact .of_quiet hturn hserved rfl rfl rfl rfl
      · exact .of_quiet hturn hserved rfl rfl rfl rfl

end Entries

/-- Inside a wait. -/
theorem stands_stay {cmd : Cmd} {pc pc' : WaitPc} (hplaced : Placed c cmd back rx)
    (hpc : rx.pc = .wait w pc) (hturn : rx'.turn = rx.turn) (hserved : rx'.served = rx.served)
    (hpc' : rx'.pc = .wait w pc')
    (hin : (RxPc.wait w pc').leaving = true → rx.turn < back + c.nbuf ∨ cmd = .reset) :
    Stands c cmd back rx.turn rx.served rx' := by
  refine ⟨hturn, hserved, hpc' ▸ rfl, hpc' ▸ rfl, fun howns => ?_, fun hleaving => ?_⟩
  · rw [hpc'] at howns
    rw [hturn]
    apply hplaced.owns
    rw [hpc]
    cases w with
    | gate => rfl
    | _ => exact absurd howns Bool.false_ne_true
  · rw [hpc'] at hleaving
    rw [hturn]
    exact hin hleaving

theorem stands_top {cmd : Cmd} {pc : WaitPc} (hplaced : Placed c cmd back rx)
    (hpc : rx.pc = .wait w pc) (spins : ℕ) :
    Stands c cmd back rx.turn rx.served ({ rx with spins := spins }.waitTop w) :=
  stands_stay hplaced hpc rfl rfl rfl fun h => absurd ((leaving_top w rx).symm.trans h)
    Bool.false_ne_true

theorem stands_lap {cmd : Cmd} {pc : WaitPc} (hplaced : Placed c cmd back rx)
    (hpc : rx.pc = .wait w pc) : Stands c cmd back rx.turn rx.served (rx.lap w) := by
  rw [Rx.lap]
  split
  · exact stands_top hplaced hpc _
  · refine stands_stay hplaced hpc rfl rfl rfl fun h => ?_
    split at h
    · exact absurd h Bool.false_ne_true
    · exact absurd h Bool.false_ne_true

/-- Out of a wait that looks at the command once more. -/
theorem stands_leave {cmd : Cmd} {pc : WaitPc} (hplaced : Placed c cmd back rx)
    (hpc : rx.pc = .wait w pc) (hover : rx.turn < back + c.nbuf ∨ cmd = .reset) :
    Stands c cmd back rx.turn rx.served (rx.leave w) :=
  stands_stay hplaced hpc rfl rfl rfl fun _ => hover

/-- A buffer that a publication or a marker waits for has been returned. -/
theorem returned_iff {log : List PubMeta} (h : Holds c.nbuf log back m.ring)
    (hw : w = .buffer ∨ w = .marker) :
    rx.returned c m w = true ↔ rx.turn < back + c.nbuf := by
  have hawaited : rx.awaited c w = (c.slot rx.turn, c.needed rx.turn) := by
    obtain rfl | rfl := hw <;> rfl
  rw [Rx.returned, hawaited, decide_eq_true_iff, c.slot_eq, c.needed_eq, h.free_iff c.nbuf_pos]

/-- A step of a wait changes nothing but the parked flag and the sleeper, and leaves the producer
before its turn. -/
theorem waitStep_stands {log : List PubMeta} {pc : WaitPc} (h : Holds c.nbuf log back m.ring)
    (hplaced : Placed c m.cmd back rx) (hpc : rx.pc = .wait w pc)
    (hstep : rx.waitStep c m w pc = some (m', rx')) :
    (∃ parked waiter, m' = { m with prodParked := parked, rxWaiter := waiter }) ∧
      Stands c m.cmd back rx.turn rx.served rx' := by
  have hstay (pc' : WaitPc) (marked : Bool) (hin : (RxPc.wait w pc').leaving = false) :
      Stands c m.cmd back rx.turn rx.served ({ rx with marked := marked }.goto (.wait w pc')) :=
    stands_stay hplaced hpc rfl rfl rfl fun h => absurd (hin.symm.trans h) Bool.false_ne_true
  have htop : Stands c m.cmd back rx.turn rx.served (rx.waitTop w) :=
    stands_top hplaced hpc rx.spins
  have hlap := stands_lap hplaced hpc
  have howned (hreturned : rx.returned c m w = true) (hw : w ≠ .advance) :
      rx.turn < back + c.nbuf := by
    cases w with
    | gate => exact hplaced.owns (hpc ▸ rfl)
    | advance => exact absurd rfl hw
    | buffer => exact (returned_iff h (Or.inl rfl)).mp hreturned
    | marker => exact (returned_iff h (Or.inr rfl)).mp hreturned
  have hexit : Stands c m.cmd back rx.turn rx.served (rx.goto .exited) :=
    .of_quiet rfl rfl rfl rfl rfl rfl
  have hleft : Stands c m.cmd back rx.turn rx.served (rx.goto .top) :=
    .of_quiet rfl rfl rfl rfl rfl rfl
  cases pc with
  | load =>
      obtain ⟨rfl, rfl⟩ := Prod.mk.inj (Option.some.inj hstep)
      refine ⟨⟨_, _, rfl⟩, ?_⟩
      split
      · next hreturned =>
        split
        · next hyields =>
          have hw : w ≠ .advance := by
            rintro rfl
            exact Bool.false_ne_true hyields
          exact stands_leave hplaced hpc (Or.inl (howned hreturned hw))
        · exact stands_passed rfl rfl (howned hreturned)
      · split
        · exact hlap
        · exact hstay .shutdown rx.marked rfl
  | shutdown =>
      obtain ⟨rfl, rfl⟩ := Prod.mk.inj (Option.some.inj hstep)
      refine ⟨⟨_, _, rfl⟩, ?_⟩
      split
      · exact hexit
      split
      · exact hstay .load rx.marked rfl
      split
      · exact hstay .cmd rx.marked rfl
      · exact hlap
  | cmd =>
      obtain ⟨rfl, rfl⟩ := Prod.mk.inj (Option.some.inj hstep)
      refine ⟨⟨_, _, rfl⟩, ?_⟩
      split
      · next hcmd => exact stands_leave hplaced hpc (Or.inr hcmd)
      · exact hlap
  | mark =>
      obtain ⟨rfl, rfl⟩ := Prod.mk.inj (Option.some.inj hstep)
      exact ⟨⟨_, _, rfl⟩, hstay .observe true rfl⟩
  | observe =>
      obtain ⟨rfl, rfl⟩ := Prod.mk.inj (Option.some.inj hstep)
      exact ⟨⟨_, _, rfl⟩, hstay _ rx.marked rfl⟩
  | recheck o =>
      obtain ⟨rfl, rfl⟩ := Prod.mk.inj (Option.some.inj hstep)
      refine ⟨⟨_, _, rfl⟩, ?_⟩
      split
      · exact htop
      split
      · exact hstay _ rx.marked rfl
      · exact hstay _ rx.marked rfl
  | recheckCmd o =>
      obtain ⟨rfl, rfl⟩ := Prod.mk.inj (Option.some.inj hstep)
      refine ⟨⟨_, _, rfl⟩, ?_⟩
      split
      · exact htop
      · exact hstay _ rx.marked rfl
  | recheckShutdown o =>
      obtain ⟨rfl, rfl⟩ := Prod.mk.inj (Option.some.inj hstep)
      refine ⟨⟨_, _, rfl⟩, ?_⟩
      split
      · exact htop
      · exact hstay _ rx.marked rfl
  | sleep o =>
      rw [Rx.waitStep] at hstep
      split at hstep
      · obtain ⟨rfl, rfl⟩ := Prod.mk.inj (Option.some.inj hstep)
        exact ⟨⟨_, _, rfl⟩, hstay .asleep rx.marked rfl⟩
      · obtain ⟨rfl, rfl⟩ := Prod.mk.inj (Option.some.inj hstep)
        exact ⟨⟨_, _, rfl⟩, htop⟩
  | asleep =>
      rw [Rx.waitStep] at hstep
      split at hstep
      · cases hstep
      · obtain ⟨rfl, rfl⟩ := Prod.mk.inj (Option.some.inj hstep)
        exact ⟨⟨_, _, rfl⟩, htop⟩
  | clear =>
      obtain ⟨rfl, rfl⟩ := Prod.mk.inj (Option.some.inj hstep)
      exact ⟨⟨_, _, rfl⟩,
        stands_stay hplaced hpc rfl rfl rfl fun _ => hplaced.leaving (hpc ▸ rfl)⟩
  | served =>
      obtain ⟨rfl, rfl⟩ := Prod.mk.inj (Option.some.inj hstep)
      refine ⟨⟨_, _, rfl⟩, ?_⟩
      split
      · exact hleft
      · next hcmd =>
        have hover := (hplaced.leaving (hpc ▸ rfl)).resolve_right hcmd
        exact stands_passed rfl rfl fun _ => hover

end Producer

/-! ## Resets -/

/-- The serve is not yet counted. -/
def RxPc.serving : RxPc → Bool
  | .ackTurn _ | .ackCnt _ => true
  | _ => false

/-- The consumer is about to send the command. -/
def ConsPc.asks : ConsPc → Bool
  | .resetCnt | .resetCmd => true
  | _ => false

/-- The command has been sent and its answer not yet seen. -/
def ConsPc.awaits : ConsPc → Bool
  | .resetBump | .resetWakeup => true
  | .ack | .ackObserve | .ackRecheck _ | .ackSleep _ | .ackAsleep => true
  | _ => false

theorem asks_of_awaits {pc : ConsPc} (h : pc.awaits = true) : pc.asks = false := by
  cases pc with
  | resetCnt => exact absurd h Bool.false_ne_true
  | resetCmd => exact absurd h Bool.false_ne_true
  | _ => rfl

/-- A command in force has a consumer that waits for its answer, and the turn of an answer that
the consumer takes is not behind its own. -/
structure Handshake (m : Mailbox) (rx : Rx) (k : Cons) : Prop where
  served_le : rx.served ≤ k.resets
  count : rx.served = m.resetAckCnt + rx.pc.serving.toNat
  serving : rx.pc.serving = true → k.pc.awaits = true
  asked : m.cmd = .reset → rx.pc.acking = false → k.pc.awaits = true ∧ rx.served < k.resets
  asks : k.pc.asks = true → rx.served < k.resets
  answering : ∀ parked, rx.pc = .ackCnt parked → k.turn ≤ m.resetAckTurn
  answered : k.pc.awaits = true → k.resets ≤ m.resetAckCnt → k.turn ≤ m.resetAckTurn
  taken : k.pc = .ackTurn → k.turn ≤ m.resetAckTurn

/-- The producer with the records that it has published. -/
structure RxOk (c : Config) (m : Mailbox) (rx : Rx) (log : List PubMeta) (back : ℕ) : Prop where
  ring : Holds c.nbuf log back m.ring
  turn : log.length = rx.turn + rx.pc.after.toNat
  placed : Placed c m.cmd back rx
  rxTurn : m.rxTurn ≤ log.length
  eos : ∀ t, m.autoEosTurn = some t → t < log.length
  ack : m.resetAckTurn ≤ log.length

section ProducerStep

variable {c : Config} {m m' : Mailbox} {rx rx' : Rx} {k : Cons} {log : List PubMeta} {back : ℕ}

theorem serving_of_acking {pc : RxPc} (h : pc.acking = false) : pc.serving = false := by
  cases pc with
  | ackTurn => exact h
  | ackCnt => exact h
  | _ => rfl

theorem RxOk.stand (h : RxOk c m rx log back) {served : ℕ}
    (hstands : Stands c m.cmd back log.length served rx') : RxOk c m rx' log back :=
  { h with
    turn := by rw [hstands.before, hstands.turn_eq]; rfl
    placed := hstands.placed }

/-- The words that a step of neither side of the handshake writes. -/
theorem Handshake.frame (h : Handshake m rx k) (hcmd : m'.cmd = m.cmd)
    (hcnt : m'.resetAckCnt = m.resetAckCnt) (hturn : m'.resetAckTurn = m.resetAckTurn) :
    Handshake m' rx k where
  served_le := h.served_le
  count := hcnt ▸ h.count
  serving := h.serving
  asked := hcmd ▸ h.asked
  asks := h.asks
  answering := hturn ▸ h.answering
  answered := hturn ▸ hcnt ▸ h.answered
  taken := hturn ▸ h.taken

theorem RxOk.frame (h : RxOk c m rx log back) (hring : m'.ring = m.ring) (hcmd : m'.cmd = m.cmd)
    (hrxTurn : m'.rxTurn = m.rxTurn) (heos : m'.autoEosTurn = m.autoEosTurn)
    (hack : m'.resetAckTurn = m.resetAckTurn) : RxOk c m' rx log back where
  ring := hring ▸ h.ring
  turn := h.turn
  placed := hcmd ▸ h.placed
  rxTurn := hrxTurn ▸ h.rxTurn
  eos := heos ▸ h.eos
  ack := hack ▸ h.ack

theorem Handshake.quiet (h : Handshake m rx k) (hrx : rx.pc.acking = false)
    (hserved : rx'.served = rx.served) (hrx' : rx'.pc.acking = false) : Handshake m rx' k where
  served_le := hserved ▸ h.served_le
  count := by
    rw [hserved, h.count, serving_of_acking hrx, serving_of_acking hrx']
  serving hserving := by
    rw [serving_of_acking hrx'] at hserving
    exact absurd hserving Bool.false_ne_true
  asked hcmd _ := hserved ▸ h.asked hcmd hrx
  asks hasks := hserved ▸ h.asks hasks
  answering parked hpc := by
    rw [hpc] at hrx'
    exact absurd hrx' (Bool.false_ne_true ∘ Eq.symm)
  answered := h.answered
  taken := h.taken

theorem rx_stand (h : RxOk c m rx log back) (hs : Handshake m rx k) (hrx : rx.pc.acking = false)
    (hstands : Stands c m.cmd back log.length rx.served rx') :
    RxOk c m rx' log back ∧ Handshake m rx' k :=
  ⟨h.stand hstands, hs.quiet hrx hstands.served_eq hstands.acked⟩

/-- A step to a point that owns nothing. -/
theorem rx_goto {pc : RxPc} (h : RxOk c m rx log back) (hs : Handshake m rx k)
    (hrx : rx.pc.acking = false) (hbefore : rx.pc.after = false) (hafter : pc.after = false)
    (hacking : pc.acking = false) (howns : pc.owns = false) (hleaving : pc.leaving = false) :
    RxOk c m (rx.goto pc) log back ∧ Handshake m (rx.goto pc) k := by
  apply rx_stand h hs hrx
  have hturn := h.turn
  rw [hbefore] at hturn
  exact .of_quiet hturn.symm rfl hafter hacking howns hleaving

/-- The words that the invariants do not read. -/
theorem rx_frame (h : RxOk c m rx log back ∧ Handshake m rx k) (hring : m'.ring = m.ring)
    (hcmd : m'.cmd = m.cmd) (hrxTurn : m'.rxTurn = m.rxTurn)
    (heos : m'.autoEosTurn = m.autoEosTurn) (hturn : m'.resetAckTurn = m.resetAckTurn)
    (hcnt : m'.resetAckCnt = m.resetAckCnt) : RxOk c m' rx log back ∧ Handshake m' rx k :=
  ⟨h.1.frame hring hcmd hrxTurn heos hturn, h.2.frame hcmd hcnt hturn⟩

/-- Between the mark of a turn and the next turn. -/
theorem rx_after {pc : RxPc} (h : RxOk c m rx log back) (hs : Handshake m rx k)
    (hrx : rx.pc.acking = false) (hafter : rx.pc.after = true) (hafter' : pc.after = true) :
    RxOk c m (rx.goto pc) log back ∧ Handshake m (rx.goto pc) k := by
  have hquiet : pc.owns = false ∧ pc.leaving = false ∧ pc.acking = false := by
    cases pc <;> first | exact ⟨rfl, rfl, rfl⟩ | exact absurd hafter' Bool.false_ne_true
  obtain ⟨howns, hleaving, hacking⟩ := hquiet
  refine ⟨{ h with turn := ?_, placed := .of_quiet howns hleaving }, hs.quiet hrx rfl hacking⟩
  rw [h.turn, hafter]
  exact congrArg (fun b : Bool => rx.turn + b.toNat) hafter'.symm

/-- The serve of a reset begins. -/
theorem rx_serve (h : RxOk c m rx log back) (hs : Handshake m rx k) (hcmd : m.cmd = .reset)
    (hrx : rx.pc.acking = false) (hturn : log.length = rx.turn) (parked : Bool) :
    RxOk c m (rx.serve m.resetSession parked) log back ∧
      Handshake m (rx.serve m.resetSession parked) k := by
  obtain ⟨hawaits, hlt⟩ := hs.asked hcmd hrx
  refine ⟨{ h with turn := hturn, placed := .of_quiet rfl rfl }, ?_⟩
  exact {
    served_le := hlt
    count := by
      have hcount := hs.count
      rw [serving_of_acking hrx] at hcount
      exact congrArg (· + 1) hcount
    serving := fun _ => hawaits
    asked := fun _ hacking => absurd hacking (Bool.false_ne_true ∘ Eq.symm)
    asks := fun hasks => absurd ((asks_of_awaits hawaits).symm.trans hasks) Bool.false_ne_true
    answering := nofun
    answered := hs.answered
    taken := hs.taken }

/-- The slot of the next turn is written. -/
theorem RxOk.write (h : RxOk c m rx log back) (hbefore : rx.pc.after = false)
    (howns : rx.pc.owns = true) (pub : PubMeta) :
    RxOk c { m with ring := m.ring.put (c.slot rx.turn) pub } rx log back := by
  have hturn : log.length = rx.turn := by rw [h.turn, hbefore]; rfl
  refine { h with ring := ?_ }
  rw [c.slot_eq, ← hturn]
  exact h.ring.put (hturn ▸ h.placed.owns howns) pub

/-- The mark of the next turn is stored. -/
theorem RxOk.publish {pc : RxPc} (h : RxOk c m rx log back) (hbefore : rx.pc.after = false)
    (howns : rx.pc.owns = true) (hafter : pc.after = true) (hquiet : pc.owns = false)
    (hleaving : pc.leaving = false) :
    RxOk c { m with ring := m.ring.mark (c.slot rx.turn) rx.turn } (rx.goto pc)
      (log ++ [m.ring.slots (c.slot rx.turn)]) back := by
  have hturn : log.length = rx.turn := by rw [h.turn, hbefore]; rfl
  have hlen : (log ++ [m.ring.slots (c.slot rx.turn)]).length = log.length + 1 :=
    List.length_append
  constructor
  · rw [c.slot_eq, ← hturn]
    exact h.ring.publish (hturn ▸ h.placed.owns howns)
  · rw [hlen, hturn]
    exact congrArg (fun b : Bool => rx.turn + b.toNat) hafter.symm
  · exact .of_quiet hquiet hleaving
  · rw [hlen]
    exact Nat.le_succ_of_le h.rxTurn
  · intro t ht
    rw [hlen]
    exact Nat.lt_succ_of_lt (h.eos t ht)
  · rw [hlen]
    exact Nat.le_succ_of_le h.ack

theorem produce_eq (rx : Rx) : ∃ inner sched idx eos,
    rx.produce.1 = { rx with inner := inner, sched := sched, idx := idx, eos := eos } := by
  rw [Rx.produce]
  split
  · split
    · exact ⟨_, _, _, _, rfl⟩
    · exact ⟨_, _, _, _, rfl⟩
  · exact ⟨_, _, _, _, rfl⟩

/-- A step of the producer, with the record that it publishes, beside any consumer. -/
theorem rx_step (h : RxOk c m rx log back) (hs : Handshake m rx k) (hk : k.turn ≤ log.length)
    (hstep : rx.step c m = some (m', rx')) :
    RxOk c m' rx' (log ++ if rx.pc = .store ∨ rx.pc = .markStore then
      [m.ring.slots (c.slot rx.turn)] else []) back ∧ Handshake m' rx' k := by
  have hlen := h.turn
  have hplaced := h.placed
  by_cases hstore : rx.pc = .store ∨ rx.pc = .markStore
  · rw [if_pos hstore]
    obtain hpc | hpc := hstore <;> rw [Rx.step, hpc] at hstep <;>
      obtain ⟨rfl, rfl⟩ := Prod.mk.inj (Option.some.inj hstep)
    · exact ⟨h.publish (hpc ▸ rfl) (hpc ▸ rfl) rfl rfl rfl,
        .frame (hs.quiet (hpc ▸ rfl) rfl rfl) rfl rfl rfl⟩
    · exact ⟨h.publish (hpc ▸ rfl) (hpc ▸ rfl) rfl rfl rfl,
        .frame (hs.quiet (hpc ▸ rfl) rfl rfl) rfl rfl rfl⟩
  rw [if_neg hstore, List.append_nil]
  have hat : rx.pc.after = false → rx.turn = log.length := fun hbefore => by
    rw [h.turn, hbefore]
    rfl
  have hnext : rx.pc.after = true → rx.turn + 1 = log.length := fun hafter => by
    rw [h.turn, hafter]
    rfl
  rw [Rx.step] at hstep
  cases hpc : rx.pc with
  | top =>
      rw [hpc] at hstep hat
      obtain ⟨rfl, rfl⟩ := Prod.mk.inj (Option.some.inj hstep)
      cases hcmd : m.cmd with
      | shutdown => exact rx_stand h hs (hpc ▸ rfl) (.of_quiet (hat rfl) rfl rfl rfl rfl rfl)
      | reset => exact rx_serve h hs hcmd (hpc ▸ rfl) (hat rfl).symm false
      | run => exact rx_stand h hs (hpc ▸ rfl) (.of_quiet (hat rfl) rfl rfl rfl rfl rfl)
  | park =>
      rw [hpc] at hstep hat
      obtain ⟨rfl, rfl⟩ := Prod.mk.inj (Option.some.inj hstep)
      cases hcmd : m.cmd with
      | shutdown => exact rx_stand h hs (hpc ▸ rfl) (.of_quiet (hat rfl) rfl rfl rfl rfl rfl)
      | reset => exact rx_serve h hs hcmd (hpc ▸ rfl) (hat rfl).symm true
      | run => exact rx_stand h hs (hpc ▸ rfl) (.of_quiet (hat rfl) rfl rfl rfl rfl rfl)
  | ackTurn parked =>
      rw [hpc] at hstep hat
      obtain ⟨rfl, rfl⟩ := Prod.mk.inj (Option.some.inj hstep)
      have hle : k.turn ≤ rx.turn := (hat rfl).symm ▸ hk
      refine ⟨{ h with
        turn := (hat rfl).symm
        placed := .of_quiet rfl rfl
        ack := Nat.le_of_eq (hat rfl) }, ?_⟩
      exact {
        served_le := hs.served_le
        count := by
          have hcount := hs.count
          rw [hpc] at hcount
          exact hcount
        serving := fun _ => hs.serving (hpc ▸ rfl)
        asked := nofun
        asks := hs.asks
        answering := fun _ _ => hle
        answered := fun _ _ => hle
        taken := fun _ => hle }
  | ackCnt parked =>
      rw [hpc] at hstep hat
      obtain ⟨rfl, rfl⟩ := Prod.mk.inj (Option.some.inj hstep)
      have hle := hs.answering parked hpc
      refine ⟨{ h with turn := (hat rfl).symm, placed := .of_quiet rfl rfl }, ?_⟩
      exact {
        served_le := hs.served_le
        count := rfl
        serving := nofun
        asked := nofun
        asks := hs.asks
        answering := nofun
        answered := fun _ _ => hle
        taken := hs.taken }
  | ackRun parked =>
      rw [hpc] at hstep hat
      obtain ⟨rfl, rfl⟩ := Prod.mk.inj (Option.some.inj hstep)
      refine ⟨{ h with turn := (hat rfl).symm, placed := .of_quiet rfl rfl }, ?_⟩
      have hcount := hs.count
      rw [hpc] at hcount
      exact { hs with
        count := hcount
        serving := nofun
        asked := nofun
        answering := nofun }
  | ackBump parked =>
      rw [hpc] at hstep
      obtain ⟨rfl, rfl⟩ := Prod.mk.inj (Option.some.inj hstep)
      exact rx_frame (rx_goto h hs (hpc ▸ rfl) (hpc ▸ rfl) rfl rfl rfl rfl) rfl rfl rfl rfl rfl rfl
  | ackWake parked =>
      rw [hpc] at hstep
      obtain ⟨rfl, rfl⟩ := Prod.mk.inj (Option.some.inj hstep)
      refine rx_frame (m := m) ?_ rfl rfl rfl rfl rfl rfl
      cases parked with
      | false => exact rx_goto h hs (hpc ▸ rfl) (hpc ▸ rfl) rfl rfl rfl rfl
      | true => exact rx_goto h hs (hpc ▸ rfl) (hpc ▸ rfl) rfl rfl rfl rfl
  | topShutdown =>
      rw [hpc] at hstep hat
      obtain ⟨rfl, rfl⟩ := Prod.mk.inj (Option.some.inj hstep)
      split
      · exact rx_goto h hs (hpc ▸ rfl) (hpc ▸ rfl) rfl rfl rfl rfl
      · exact rx_stand h hs (hpc ▸ rfl) (stands_enterTurn (hat rfl) rfl)
  | wait w pc =>
      rw [hpc] at hstep hat
      obtain ⟨⟨parked, waiter, rfl⟩, hstands⟩ := waitStep_stands h.ring hplaced hpc hstep
      rw [hat rfl] at hstands
      exact rx_frame (rx_stand h hs (hpc ▸ rfl) hstands) rfl rfl rfl rfl rfl rfl
  | write =>
      rw [hpc] at hstep hat
      obtain ⟨rfl, rfl⟩ := Prod.mk.inj (Option.some.inj hstep)
      have howned := hplaced.owns (hpc ▸ rfl)
      obtain ⟨inner, sched, idx, eos, hproduce⟩ := produce_eq rx
      rw [hproduce]
      apply rx_stand (h.write (hpc ▸ rfl) (hpc ▸ rfl) _) (hs.frame rfl rfl rfl) (hpc ▸ rfl)
      exact .of_owned (hat rfl) rfl rfl rfl rfl (hat rfl ▸ howned)
  | store => exact absurd (Or.inl hpc) hstore
  | turnStore =>
      rw [hpc] at hstep hnext
      obtain ⟨rfl, rfl⟩ := Prod.mk.inj (Option.some.inj hstep)
      have hgo : RxOk c m (rx.goto .swap) log back ∧ _ :=
        rx_after h hs (hpc ▸ rfl) (hpc ▸ rfl) rfl
      exact ⟨{ hgo.1 with rxTurn := Nat.le_of_eq (hnext rfl) }, hgo.2.frame rfl rfl rfl⟩
  | swap =>
      rw [hpc] at hstep hnext
      obtain ⟨rfl, rfl⟩ := Prod.mk.inj (Option.some.inj hstep)
      refine rx_frame (m := m) ?_ rfl rfl rfl rfl rfl rfl
      split
      · exact rx_after h hs (hpc ▸ rfl) (hpc ▸ rfl) rfl
      · exact rx_stand h hs (hpc ▸ rfl) (hnext rfl ▸ stands_afterPublication rfl rfl)
  | pubBump =>
      rw [hpc] at hstep
      obtain ⟨rfl, rfl⟩ := Prod.mk.inj (Option.some.inj hstep)
      exact rx_frame (rx_after h hs (hpc ▸ rfl) (hpc ▸ rfl) rfl) rfl rfl rfl rfl rfl rfl
  | pubWakeup =>
      rw [hpc] at hstep hnext
      obtain ⟨rfl, rfl⟩ := Prod.mk.inj (Option.some.inj hstep)
      refine rx_frame (m := m) ?_ rfl rfl rfl rfl rfl rfl
      exact rx_stand h hs (hpc ▸ rfl) (hnext rfl ▸ stands_afterPublication rfl rfl)
  | markWrite =>
      rw [hpc] at hstep hat
      obtain ⟨rfl, rfl⟩ := Prod.mk.inj (Option.some.inj hstep)
      have howned := hplaced.owns (hpc ▸ rfl)
      apply rx_stand (h.write (hpc ▸ rfl) (hpc ▸ rfl) _) (hs.frame rfl rfl rfl) (hpc ▸ rfl)
      exact .of_owned (hat rfl) rfl rfl rfl rfl (hat rfl ▸ howned)
  | markStore => exact absurd (Or.inr hpc) hstore
  | markEos =>
      rw [hpc] at hstep hnext
      obtain ⟨rfl, rfl⟩ := Prod.mk.inj (Option.some.inj hstep)
      have hgo : RxOk c m (rx.goto .markTurn) log back ∧ _ :=
        rx_after h hs (hpc ▸ rfl) (hpc ▸ rfl) rfl
      refine ⟨{ hgo.1 with eos := fun t ht => ?_ }, hgo.2.frame rfl rfl rfl⟩
      rw [← Option.some.inj ht]
      exact Nat.le_of_eq (hnext rfl)
  | markTurn =>
      rw [hpc] at hstep hnext
      obtain ⟨rfl, rfl⟩ := Prod.mk.inj (Option.some.inj hstep)
      have hgo : RxOk c m (rx.goto .markSwap) log back ∧ _ :=
        rx_after h hs (hpc ▸ rfl) (hpc ▸ rfl) rfl
      exact ⟨{ hgo.1 with rxTurn := Nat.le_of_eq (hnext rfl) }, hgo.2.frame rfl rfl rfl⟩
  | markSwap =>
      rw [hpc] at hstep hnext
      obtain ⟨rfl, rfl⟩ := Prod.mk.inj (Option.some.inj hstep)
      refine rx_frame (m := m) ?_ rfl rfl rfl rfl rfl rfl
      split
      · exact rx_after h hs (hpc ▸ rfl) (hpc ▸ rfl) rfl
      · exact rx_stand h hs (hpc ▸ rfl) (hnext rfl ▸ stands_afterMarker rfl rfl)
  | markBump =>
      rw [hpc] at hstep
      obtain ⟨rfl, rfl⟩ := Prod.mk.inj (Option.some.inj hstep)
      exact rx_frame (rx_after h hs (hpc ▸ rfl) (hpc ▸ rfl) rfl) rfl rfl rfl rfl rfl rfl
  | markWakeup =>
      rw [hpc] at hstep hnext
      obtain ⟨rfl, rfl⟩ := Prod.mk.inj (Option.some.inj hstep)
      refine rx_frame (m := m) ?_ rfl rfl rfl rfl rfl rfl
      exact rx_stand h hs (hpc ▸ rfl) (hnext rfl ▸ stands_afterMarker rfl rfl)
  | bakeTurn =>
      rw [hpc] at hstep
      obtain ⟨rfl, rfl⟩ := Prod.mk.inj (Option.some.inj hstep)
      exact rx_frame (rx_goto h hs (hpc ▸ rfl) (hpc ▸ rfl) rfl rfl rfl rfl) rfl rfl rfl rfl rfl rfl
  | bakePass =>
      rw [hpc] at hstep
      obtain ⟨rfl, rfl⟩ := Prod.mk.inj (Option.some.inj hstep)
      exact rx_frame (rx_goto h hs (hpc ▸ rfl) (hpc ▸ rfl) rfl rfl rfl rfl) rfl rfl rfl rfl rfl rfl
  | advBump =>
      rw [hpc] at hstep
      obtain ⟨rfl, rfl⟩ := Prod.mk.inj (Option.some.inj hstep)
      exact rx_frame (rx_goto h hs (hpc ▸ rfl) (hpc ▸ rfl) rfl rfl rfl rfl) rfl rfl rfl rfl rfl rfl
  | advWake =>
      rw [hpc] at hstep
      obtain ⟨rfl, rfl⟩ := Prod.mk.inj (Option.some.inj hstep)
      exact rx_frame (rx_goto h hs (hpc ▸ rfl) (hpc ▸ rfl) rfl rfl rfl rfl) rfl rfl rfl rfl rfl rfl
  | parkShutdown =>
      rw [hpc] at hstep
      obtain ⟨rfl, rfl⟩ := Prod.mk.inj (Option.some.inj hstep)
      split
      · exact rx_goto h hs (hpc ▸ rfl) (hpc ▸ rfl) rfl rfl rfl rfl
      · exact rx_goto h hs (hpc ▸ rfl) (hpc ▸ rfl) rfl rfl rfl rfl
  | parkObserve =>
      rw [hpc] at hstep
      obtain ⟨rfl, rfl⟩ := Prod.mk.inj (Option.some.inj hstep)
      exact rx_goto h hs (hpc ▸ rfl) (hpc ▸ rfl) rfl rfl rfl rfl
  | parkCmd o =>
      rw [hpc] at hstep
      obtain ⟨rfl, rfl⟩ := Prod.mk.inj (Option.some.inj hstep)
      split
      · exact rx_goto h hs (hpc ▸ rfl) (hpc ▸ rfl) rfl rfl rfl rfl
      · exact rx_goto h hs (hpc ▸ rfl) (hpc ▸ rfl) rfl rfl rfl rfl
  | parkSleep o =>
      rw [hpc] at hstep
      dsimp only at hstep
      split at hstep
      · obtain ⟨rfl, rfl⟩ := Prod.mk.inj (Option.some.inj hstep)
        refine rx_frame (m := m) ?_ rfl rfl rfl rfl rfl rfl
        exact rx_goto h hs (hpc ▸ rfl) (hpc ▸ rfl) rfl rfl rfl rfl
      · obtain ⟨rfl, rfl⟩ := Prod.mk.inj (Option.some.inj hstep)
        exact rx_goto h hs (hpc ▸ rfl) (hpc ▸ rfl) rfl rfl rfl rfl
  | parkAsleep =>
      rw [hpc] at hstep
      dsimp only at hstep
      split at hstep
      · cases hstep
      · obtain ⟨rfl, rfl⟩ := Prod.mk.inj (Option.some.inj hstep)
        exact rx_goto h hs (hpc ▸ rfl) (hpc ▸ rfl) rfl rfl rfl rfl
  | exited =>
      rw [hpc] at hstep
      cases hstep

end ProducerStep

end HftProj.Transport.Pipeline
