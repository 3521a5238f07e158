import HftProj.Transport.PipelineDelivery
import HftProj.Transport.Publications

/-!
# The stream of passes

Whatever the consumer does, the producer publishes one pass after the other, each with the same
records: the walk of the first pass and the marker. A reset may cut a pass short. The replay of a
recorded schedule publishes what the walk would.
-/

namespace HftProj.Transport.Pipeline

open HftProj.Lib HftProj.Lib.TurnRing HftProj.Protocol.Moldudp64 ReplayTransport

/-! ## Where the producer is in a pass -/

inductive Stage where
  | between
  | ready
  | written
  | published
  | closing
  | sealing
  | closed
  | over
  | exited
  deriving DecidableEq

def RxPc.stage : RxPc → Stage
  | .top | .ackTurn _ | .ackCnt _ | .ackRun _ | .ackBump _ | .ackWake _ | .topShutdown => .between
  | .bakeTurn | .bakePass | .advBump | .advWake => .between
  | .wait .buffer _ | .write => .ready
  | .store => .written
  | .turnStore | .swap | .pubBump | .pubWakeup => .published
  | .wait .marker _ | .wait .gate _ => .closing
  | .markWrite => .sealing
  | .markStore => .closed
  | .markEos | .markTurn | .markSwap | .markBump | .markWakeup | .wait .advance _ => .over
  | .park | .parkShutdown | .parkObserve | .parkCmd _ | .parkSleep _ | .parkAsleep => .over
  | .exited => .exited

namespace Rx

/-- The publications that a live walk has left. -/
def live (rx : Rx) : Stage → List PubMeta
  | .between | .ready => walk rx.inner rx.idx
  | .written | .published => if rx.eos then [] else walk rx.inner rx.idx
  | _ => []

/-- The publications that the pass has left. -/
def left (rx : Rx) (stage : Stage) : List PubMeta :=
  match rx.sched with
  | .play rows i => rows.drop i
  | _ => rx.live stage

/-- The records that the pass still has to publish, when the slot of the turn holds `slot`. -/
def ahead (rx : Rx) (slot : PubMeta) : Stage → List PubMeta
  | .between => rx.left .between ++ [.EMPTY]
  | .ready => rx.left .ready ++ [.EMPTY]
  | .written => slot :: (rx.left .written ++ [.EMPTY])
  | .published => rx.left .published ++ [.EMPTY]
  | .closing | .sealing => [.EMPTY]
  | .closed => [slot]
  | .over | .exited => []

end Rx

/-- The schedule against the walk of the first pass: a recording has what has been walked, a
replay all of it. -/
structure Kept (pass : List PubMeta) (rx : Rx) (stage : Stage) : Prop where
  recording : ∀ rows, rx.sched = .recording rows → rows ++ rx.live stage = pass ∧
    stage ≠ .sealing ∧ stage ≠ .closed ∧ stage ≠ .over
  play : ∀ rows i, rx.sched = .play rows i → rows = pass ∧ i ≤ rows.length ∧
    (stage = .ready → i < rows.length ∧ rx.eos = false) ∧
      (stage = .written ∨ stage = .published → rx.eos = false)

/-- How the records published so far are made of passes; a pass that a reset has cut short is
counted as a serve. -/
def Cut (full log : List PubMeta) (pass served : ℕ) (seg : List PubMeta) : Prop :=
  ∃ segs : List (List PubMeta), log = segs.flatten ++ seg ∧ segs.length = pass + served ∧
    (∀ s ∈ segs, s <+: full) ∧ segs.countP (· ≠ full) ≤ served

/-- The points of a wait that look at the command on its way out. -/
def WaitPc.commands : WaitPc → Bool
  | .cmd | .clear | .served => true
  | _ => false

def RxPc.waiting : RxPc → Bool
  | .wait _ _ => true
  | _ => false

def RxPc.inside : RxPc → Bool
  | .exited => false
  | _ => true

/-- The slot of the turn holds the record that the next store publishes. -/
def Stage.filled : Stage → Bool
  | .written | .closed => true
  | _ => false

/-- The waits that the thread can be in. -/
def RxPc.Waits (c : Config) (pc : RxPc) : Prop :=
  ∀ w pc', pc = .wait w pc' →
    (w = .gate → c.prearm = true) ∧ (pc'.commands = true → w.yields = true)

/-- The producer's stream at a stage. -/
structure At (c : Config) (t₀ : ReplayTransport) (rx : Rx) (slot : PubMeta) (log : List PubMeta)
    (stage : Stage) : Prop where
  static : Static t₀ rx.inner
  prearm : rx.prearm = true → c.prearm = true
  served : 0 < rx.served → c.autoFn = none
  kept : Kept (walk t₀ 0) rx stage
  place : ∃ seg, Cut (passRecords t₀) log rx.pass rx.served seg ∧
    seg ++ rx.ahead slot stage = passRecords t₀

/-- The stream of a producer that may have ended anywhere. -/
structure Streams (c : Config) (t₀ : ReplayTransport) (rx : Rx) (slot : PubMeta)
    (log : List PubMeta) : Prop where
  served : 0 < rx.served → c.autoFn = none
  place : ∃ seg, Cut (passRecords t₀) log rx.pass rx.served seg ∧ seg <+: passRecords t₀
  waits : rx.pc.Waits c
  here : rx.pc ≠ .exited → At c t₀ rx slot log rx.pc.stage

section Steps

variable {c : Config} {t₀ : ReplayTransport} {rx rx' : Rx} {slot slot' : PubMeta}
  {log : List PubMeta} {stage : Stage}

theorem walk_ne_nil (t : ReplayTransport) (idx : ℕ) : walk t idx ≠ [] := by
  rw [walk]
  exact List.cons_ne_nil _ _

theorem waits_at {w : Wait} (hgate : w = .gate → c.prearm = true) :
    RxPc.Waits c (.wait w (if w = .advance then .shutdown else .load)) := by
  rintro _ _ ⟨⟩
  refine ⟨hgate, fun hcommands => ?_⟩
  split at hcommands
  · exact absurd hcommands Bool.false_ne_true
  · exact absurd hcommands Bool.false_ne_true

theorem waits_off {pc : RxPc} (h : pc.waiting = false) : pc.Waits c := by
  rintro w pc' rfl
  cases h

theorem waits_ungated {w : Wait} (hgate : w ≠ .gate) :
    RxPc.Waits c (.wait w (if w = .advance then .shutdown else .load)) :=
  waits_at fun h => absurd h hgate

theorem Streams.inside (h : Streams c t₀ rx slot log) (hpc : rx.pc.inside = true) :
    At c t₀ rx slot log rx.pc.stage := by
  apply h.here
  intro hexited
  rw [hexited] at hpc
  cases hpc

theorem Kept.of_off {pass : List PubMeta} (hsched : rx.sched = .off) : Kept pass rx stage where
  recording _ hrec := by cases hsched.symm.trans hrec
  play _ _ hplay := by cases hsched.symm.trans hplay

/-- Outside of the records' stages a replay only has to stand inside the pass. -/
theorem unplayed {p q : Prop} (hstage : stage ≠ .ready ∧ stage ≠ .written ∧ stage ≠ .published) :
    (stage = .ready → p) ∧ (stage = .written ∨ stage = .published → q) := by
  obtain ⟨hready, hwritten, hpublished⟩ := hstage
  exact ⟨fun h => absurd h hready, fun h => h.elim (absurd · hwritten) (absurd · hpublished)⟩

theorem At.streams (h : At c t₀ rx slot log stage) (hstage : rx.pc.stage = stage)
    (hwaits : rx.pc.Waits c) : Streams c t₀ rx slot log := by
  obtain ⟨seg, hcut, hahead⟩ := h.place
  exact ⟨h.served, ⟨seg, hcut, hahead ▸ List.prefix_append _ _⟩, hwaits, fun _ => hstage.symm ▸ h⟩

theorem Streams.of_at (stage : Stage) (h : At c t₀ rx slot log stage) (hstage : rx.pc.stage = stage)
    (hwaits : rx.pc.Waits c) : Streams c t₀ rx slot log :=
  h.streams hstage hwaits

theorem At.exit (h : At c t₀ rx slot log stage) : Streams c t₀ (rx.goto .exited) slot' log := by
  obtain ⟨seg, hcut, hahead⟩ := h.place
  exact ⟨h.served, ⟨seg, hcut, hahead ▸ List.prefix_append _ _⟩, waits_off rfl,
    fun hpc => absurd rfl hpc⟩

/-- What the stream does not depend on. -/
theorem At.move (h : At c t₀ rx slot log stage) (pc : RxPc) (turn spins : ℕ) (marked : Bool)
    (hstage : stage.filled = false) :
    At c t₀ { rx with pc := pc, turn := turn, spins := spins, marked := marked } slot' log
      stage := by
  refine ⟨h.static, h.prearm, h.served, ⟨h.kept.recording, h.kept.play⟩, ?_⟩
  obtain ⟨seg, hcut, hahead⟩ := h.place
  refine ⟨seg, hcut, ?_⟩
  cases stage with
  | written => cases hstage
  | closed => cases hstage
  | _ => exact hahead

/-- Before the marker, the schedule is frozen. -/
theorem At.freeze (h : At c t₀ rx slot log .closing) : At c t₀ rx.freeze slot log .sealing := by
  obtain ⟨seg, hcut, hahead⟩ := h.place
  rw [Rx.freeze]
  split
  · next hsched => exact absurd (h.kept.recording [] hsched).1.symm (walk_ne_nil t₀ 0)
  · next rows _ hsched =>
    have hrows : rows = walk t₀ 0 :=
      (List.append_nil rows).symm.trans (h.kept.recording rows hsched).1
    refine ⟨h.static, h.prearm, h.served,
      ⟨fun _ hrec => (by cases hrec), fun rows' i hplay => ?_⟩, seg, hcut, hahead⟩
    obtain ⟨rfl, rfl⟩ := RxSched.play.inj hplay
    exact ⟨hrows, Nat.zero_le _, unplayed (by decide)⟩
  · next hnil hrecording =>
    refine ⟨h.static, h.prearm, h.served,
      ⟨fun rows hsched => ?_, fun rows i hsched => ?_⟩, seg, hcut, hahead⟩
    · cases rows with
      | nil => exact absurd hsched hnil
      | cons row rows => exact absurd hsched (hrecording _)
    · obtain ⟨hrows, hle, -⟩ := h.kept.play rows i hsched
      exact ⟨hrows, hle, unplayed (by decide)⟩

theorem At.enterGate (h : At c t₀ rx slot log .closing) :
    Streams c t₀ rx.enterGate slot' log := by
  rw [Rx.enterGate]
  split
  · next hgate =>
    exact (h.move _ _ _ _ rfl).streams rfl (waits_at fun _ => h.prearm hgate.1)
  · exact (h.freeze.move .markWrite _ _ _ rfl).streams rfl (waits_off rfl)

theorem At.enterMarker (h : At c t₀ rx slot log .closing) :
    Streams c t₀ (rx.enterMarker c) slot' log := by
  rw [Rx.enterMarker]
  split
  · exact (h.move _ _ _ _ rfl).streams rfl (waits_ungated (by decide))
  · exact h.enterGate

/-- A turn is the marker's when nothing is left of the pass. -/
theorem At.close (h : At c t₀ rx slot log stage)
    (hahead : ∀ slot, rx.ahead slot stage = rx.left stage ++ [.EMPTY])
    (hleft : rx.left stage = []) : At c t₀ rx slot log .closing := by
  obtain ⟨seg, hcut, hplace⟩ := h.place
  rw [hahead, hleft] at hplace
  refine ⟨h.static, h.prearm, h.served,
    ⟨fun rows hsched => ?_, fun rows i hsched => ?_⟩, seg, hcut, hplace⟩
  · have hlive : rx.live stage = [] := by
      rw [← hleft, Rx.left, hsched]
    have hrows := (h.kept.recording rows hsched).1
    rw [hlive] at hrows
    exact ⟨hrows, by decide⟩
  · obtain ⟨hrows, hle, -⟩ := h.kept.play rows i hsched
    exact ⟨hrows, hle, unplayed (by decide)⟩

theorem At.enterTurn (h : At c t₀ rx slot log .between) :
    Streams c t₀ (rx.enterTurn c) slot' log := by
  have heos (eos : Bool) : At c t₀ { rx with eos := eos } slot log .between := by
    refine ⟨h.static, h.prearm, h.served, ⟨h.kept.recording, fun rows i hsched => ?_⟩, h.place⟩
    obtain ⟨hrows, hle, -⟩ := h.kept.play rows i hsched
    exact ⟨hrows, hle, unplayed (by decide)⟩
  rw [Rx.enterTurn]
  split
  · next hend =>
    apply (At.close (heos _) (fun _ => rfl) _).enterMarker
    dsimp only at hend
    rw [Rx.left]
    cases hsched : rx.sched with
    | off =>
        rw [hsched] at hend
        cases hend
    | recording rows =>
        rw [hsched] at hend
        cases hend
    | play rows i =>
        rw [hsched, RxSched.playPos, beq_iff_eq] at hend
        exact List.drop_eq_nil_of_le hend.ge
  · next hend =>
    have hready : At c t₀ { rx with eos := rx.sched.playPos.2 } slot log .ready := by
      refine ⟨h.static, h.prearm, h.served,
        ⟨fun rows hsched => ?_, fun rows i hsched => ?_⟩, h.place⟩
      · exact ⟨(h.kept.recording rows hsched).1, by decide⟩
      · obtain ⟨hrows, hle, -⟩ := h.kept.play rows i hsched
        have hsched : rx.sched = .play rows i := hsched
        dsimp only at hend ⊢
        rw [hsched, RxSched.playPos] at hend ⊢
        have hlt : i < rows.length :=
          Nat.lt_of_le_of_ne hle fun heq => hend (beq_iff_eq.mpr heq)
        exact ⟨hrows, hle, fun _ => ⟨hlt, beq_eq_false_iff_ne.mpr hlt.ne⟩,
          fun _ => beq_eq_false_iff_ne.mpr hlt.ne⟩
    split
    · exact (hready.move _ _ _ _ rfl).streams rfl (waits_ungated (by decide))
    · exact (hready.move _ _ _ _ rfl).streams rfl (waits_off rfl)

/-- Behind a publication. -/
theorem At.afterPublication (h : At c t₀ rx slot log .published) :
    Streams c t₀ (rx.afterPublication c) slot' log := by
  have hnext : At c t₀ { rx with turn := rx.turn + 1 } slot log .published :=
    h.move rx.pc _ rx.spins rx.marked rfl
  rw [Rx.afterPublication]
  split
  · next heos =>
    apply (At.close hnext (fun _ => rfl) _).enterMarker
    have heos : rx.eos = true := heos
    rw [Rx.left]
    split
    · next rows i hsched =>
      have hopen := (h.kept.play rows i hsched).2.2.2 (Or.inr rfl)
      exact absurd (heos.symm.trans hopen) (Bool.false_ne_true ∘ Eq.symm)
    · exact if_pos heos
  · next heos =>
    have hlive : rx.live .published = rx.live .between := if_neg heos
    refine .of_at .between
      ⟨h.static, h.prearm, h.served, ⟨fun rows hsched => ?_, fun rows i hsched => ?_⟩, ?_⟩ rfl
      (waits_off rfl)
    · exact ⟨hlive ▸ (h.kept.recording rows hsched).1, by decide⟩
    · obtain ⟨hrows, hle, -⟩ := h.kept.play rows i hsched
      exact ⟨hrows, hle, unplayed (by decide)⟩
    · obtain ⟨seg, hcut, hahead⟩ := h.place
      refine ⟨seg, hcut, ?_⟩
      have hleft : rx.left .published = rx.left .between := by
        rw [Rx.left, Rx.left, hlive]
      rw [Rx.ahead, hleft] at hahead
      exact hahead

/-! ## Passes -/

/-- The pass that is over starts the next. -/
theorem Cut.next {full seg : List PubMeta} {pass served : ℕ} (h : Cut full log pass served seg)
    (hseg : seg = full) : Cut full log (pass + 1) served [] := by
  obtain ⟨segs, hlog, hlen, hprefix, hcount⟩ := h
  subst hseg
  refine ⟨segs ++ [seg], ?_, ?_, ?_, ?_⟩
  · rw [hlog, List.flatten_append, List.append_nil, List.flatten_singleton]
  · rw [List.length_append, hlen, List.length_singleton]
    omega
  · intro s hs
    obtain hold | hnew := List.mem_append.mp hs
    · exact hprefix s hold
    · rw [List.mem_singleton.mp hnew]
  · rw [List.countP_append, List.countP_singleton]
    simpa using hcount

/-- A reset cuts the pass. -/
theorem Cut.serve {full seg : List PubMeta} {pass served : ℕ} (h : Cut full log pass served seg)
    (hseg : seg <+: full) : Cut full log pass (served + 1) [] := by
  obtain ⟨segs, hlog, hlen, hprefix, hcount⟩ := h
  refine ⟨segs ++ [seg], ?_, ?_, ?_, ?_⟩
  · rw [hlog, List.flatten_append, List.append_nil, List.flatten_singleton]
  · rw [List.length_append, hlen, List.length_singleton]
    rfl
  · intro s hs
    obtain hold | hnew := List.mem_append.mp hs
    · exact hprefix s hold
    · rwa [List.mem_singleton.mp hnew]
  · rw [List.countP_append, List.countP_singleton]
    split <;> omega

/-- A record is published. -/
theorem Cut.publish {full seg : List PubMeta} {pass served : ℕ} (h : Cut full log pass served seg)
    (pub : PubMeta) : Cut full (log ++ [pub]) pass served (seg ++ [pub]) := by
  obtain ⟨segs, rfl, hlen, hprefix, hcount⟩ := h
  exact ⟨segs, List.append_assoc _ _ _, hlen, hprefix, hcount⟩

/-- The next pass is baked. -/
theorem At.bake (h : At c t₀ rx slot log .over) (hfresh : Fresh t₀) (f : ℕ → SessionId) :
    Streams c t₀ (rx.bake c f) slot' log := by
  obtain ⟨seg, hcut, hahead⟩ := h.place
  have hinner (session : SessionId) :
      let t := if c.elision then rx.inner.resetCursors session else rx.inner.reset session
      Static t₀ t ∧ walk t 0 = walk t₀ 0 := by
    dsimp only
    split
    · have hpace := hfresh.resetCursors h.static session
      exact ⟨hpace.toStatic, walk_pace hpace 0⟩
    · have hpace := hfresh.reset h.static session
      exact ⟨hpace.toStatic, walk_pace hpace 0⟩
  have hseg : seg = passRecords t₀ := (List.append_nil seg).symm.trans hahead
  have hleft : (rx.bake c f).left .between = walk t₀ 0 ∧
      Kept (walk t₀ 0) (rx.bake c f) .between := by
    rw [Rx.left, Rx.bake]
    cases hsched : rx.sched with
    | off => exact ⟨(hinner _).2, .of_off rfl⟩
    | recording rows => exact absurd rfl (h.kept.recording rows hsched).2.2.2
    | play rows i =>
        have hrows := (h.kept.play rows i hsched).1
        refine ⟨hrows, fun _ hrec => (by cases hrec), fun rows' i' hplay => ?_⟩
        obtain ⟨rfl, rfl⟩ := RxSched.play.inj hplay
        exact ⟨hrows, Nat.zero_le _, unplayed (by decide)⟩
  refine .of_at .between
    ⟨(hinner _).1, h.prearm, h.served, hleft.2, [], hcut.next hseg, ?_⟩ rfl (waits_off rfl)
  rw [Rx.ahead, hleft.1, List.nil_append, passRecords]

/-- Behind the marker. -/
theorem At.afterMarker (h : At c t₀ rx slot log .over) (hfresh : Fresh t₀) :
    Streams c t₀ (rx.afterMarker c) slot' log := by
  have hnext : At c t₀ { rx with turn := rx.turn + 1 } slot log .over :=
    h.move rx.pc _ rx.spins rx.marked rfl
  rw [Rx.afterMarker]
  split
  · next f _ =>
    split
    · exact hnext.bake hfresh f
    · exact (h.move _ _ _ _ rfl).streams rfl (waits_ungated (by decide))
  · exact (h.move _ _ _ _ rfl).streams rfl (waits_off rfl)

/-- A reset is served. -/
theorem At.serve (h : At c t₀ rx slot log stage) (hfresh : Fresh t₀) (hnone : c.autoFn = none)
    (session : SessionId) (parked : Bool) : Streams c t₀ (rx.serve session parked) slot' log := by
  obtain ⟨seg, hcut, hahead⟩ := h.place
  have hpace := hfresh.reset h.static session
  have hserve := hcut.serve (hahead ▸ List.prefix_append _ _)
  refine .of_at .between
    ⟨hpace.toStatic, fun h => (by cases h), fun _ => hnone, .of_off rfl, [], hserve, ?_⟩ rfl
    (waits_off rfl)
  exact congrArg (· ++ [PubMeta.EMPTY]) (walk_pace hpace 0)

/-- A live walk leaves the rest of its publications. -/
theorem live_step (rx : Rx) : walk rx.inner rx.idx = firstPub rx.inner rx.idx ::
    if (Rx.accumulate rx.inner 0 0).2.2.2 = true then []
    else walk (Rx.accumulate rx.inner 0 0).1 (rx.idx + (Rx.accumulate rx.inner 0 0).2.1) := by
  rw [walk]
  rfl

/-- The next publication is written. -/
theorem At.write (h : At c t₀ rx slot log .ready) :
    Streams c t₀ (rx.produce.1.goto .store) rx.produce.2 log := by
  obtain ⟨seg, hcut, hahead⟩ := h.place
  have hstatic := h.static.trans (accumulate_walked rx.inner 0 0).static
  have hlive : rx.left .ready = walk rx.inner rx.idx → seg ++ (firstPub rx.inner rx.idx ::
      ((if (Rx.accumulate rx.inner 0 0).2.2.2 = true then []
      else walk (Rx.accumulate rx.inner 0 0).1 (rx.idx + (Rx.accumulate rx.inner 0 0).2.1)) ++
        [PubMeta.EMPTY])) = passRecords t₀ := fun hleft => by
    rw [Rx.ahead, hleft, live_step] at hahead
    exact hahead
  cases hsched : rx.sched with
  | off =>
      have hproduce : rx.produce = ({ rx with
          inner := (Rx.accumulate rx.inner 0 0).1
          idx := rx.idx + (Rx.accumulate rx.inner 0 0).2.1
          eos := (Rx.accumulate rx.inner 0 0).2.2.2
          sched := .off }, firstPub rx.inner rx.idx) := by
        rw [Rx.produce, hsched]
        rfl
      rw [hproduce]
      refine .of_at .written
        ⟨hstatic, h.prearm, h.served, .of_off rfl, seg, hcut, hlive ?_⟩ rfl (waits_off rfl)
      rw [Rx.left, hsched]
      rfl
  | recording rows =>
      have hproduce : rx.produce = ({ rx with
          inner := (Rx.accumulate rx.inner 0 0).1
          idx := rx.idx + (Rx.accumulate rx.inner 0 0).2.1
          eos := (Rx.accumulate rx.inner 0 0).2.2.2
          sched := .recording (rows ++ [firstPub rx.inner rx.idx]) },
          firstPub rx.inner rx.idx) := by
        rw [Rx.produce, hsched]
        rfl
      have hrows := (h.kept.recording rows hsched).1
      rw [Rx.live, live_step, ← List.singleton_append, ← List.append_assoc] at hrows
      rw [hproduce]
      refine .of_at .written
        ⟨hstatic, h.prearm, h.served, ⟨fun rows' hrec => ?_, fun _ _ hplay => by cases hplay⟩, seg,
          hcut, hlive ?_⟩ rfl (waits_off rfl)
      · obtain rfl := RxSched.recording.inj hrec
        exact ⟨hrows, by decide⟩
      · rw [Rx.left, hsched]
        rfl
  | play rows i =>
      obtain ⟨hrows, hle, hready, -⟩ := h.kept.play rows i hsched
      obtain ⟨hlt, heos⟩ := hready rfl
      have hproduce : rx.produce = ({ rx with sched := .play rows (i + 1) }, rows[i]) := by
        rw [Rx.produce, hsched]
        exact dif_pos hlt
      rw [hproduce]
      refine .of_at .written
        ⟨h.static, h.prearm, h.served,
          ⟨fun _ hrec => (by cases hrec), fun rows' i' hplay => ?_⟩, seg, hcut, ?_⟩ rfl
        (waits_off rfl)
      · obtain ⟨rfl, rfl⟩ := RxSched.play.inj hplay
        exact ⟨hrows, hlt, by rintro ⟨⟩, fun _ => heos⟩
      · rw [Rx.ahead, Rx.left, hsched] at hahead
        dsimp only at hahead
        rw [List.drop_eq_getElem_cons hlt] at hahead
        exact hahead

/-- The mark of a publication is stored. -/
theorem At.store (h : At c t₀ rx slot log .written) :
    Streams c t₀ (rx.goto .turnStore) slot' (log ++ [slot]) := by
  obtain ⟨seg, hcut, hahead⟩ := h.place
  refine .of_at .published
    ⟨h.static, h.prearm, h.served, ⟨fun rows hsched => ?_, fun rows i hsched => ?_⟩, seg ++ [slot],
      hcut.publish slot, (List.append_assoc _ _ _).trans hahead⟩ rfl (waits_off rfl)
  · exact ⟨(h.kept.recording rows hsched).1, by decide⟩
  · obtain ⟨hrows, hle, -, heos⟩ := h.kept.play rows i hsched
    exact ⟨hrows, hle, by rintro ⟨⟩, fun _ => heos (Or.inl rfl)⟩

/-- The mark of a pass's end is stored. -/
theorem At.markStore (h : At c t₀ rx slot log .closed) :
    Streams c t₀ (rx.goto .markEos) slot' (log ++ [slot]) := by
  obtain ⟨seg, hcut, hahead⟩ := h.place
  refine .of_at .over
    ⟨h.static, h.prearm, h.served, ⟨fun rows hsched => ?_, fun rows i hsched => ?_⟩, seg ++ [slot],
      hcut.publish slot, (List.append_nil _).trans hahead⟩ rfl (waits_off rfl)
  · exact absurd rfl (h.kept.recording rows hsched).2.2.1
  · obtain ⟨hrows, hle, -⟩ := h.kept.play rows i hsched
    exact ⟨hrows, hle, unplayed (by decide)⟩

/-- The marker is written. -/
theorem At.markWrite (h : At c t₀ rx slot log .sealing) :
    Streams c t₀ (rx.goto .markStore) .EMPTY log := by
  obtain ⟨seg, hcut, hahead⟩ := h.place
  refine .of_at .closed
    ⟨h.static, h.prearm, h.served,
      ⟨fun rows hsched => ?_, fun rows i hsched => ?_⟩, seg, hcut, hahead⟩
    rfl (waits_off rfl)
  · exact absurd rfl (h.kept.recording rows hsched).2.1
  · obtain ⟨hrows, hle, -⟩ := h.kept.play rows i hsched
    exact ⟨hrows, hle, unplayed (by decide)⟩

/-! ## Steps of the producer -/

/-- Still in the wait. -/
def StaysIn (w : Wait) (rx rx' : Rx) : Prop :=
  ∃ pc' spins marked, (pc'.commands = true → w.yields = true) ∧
    rx' = { rx with pc := .wait w pc', spins := spins, marked := marked }

/-- A step of a wait goes on in it, ends the thread, gives way to a command, or is over. -/
theorem waitStep_rx {m m' : Mailbox} {w : Wait} {pc : WaitPc}
    (hpc : pc.commands = true → w.yields = true)
    (hstep : rx.waitStep c m w pc = some (m', rx')) :
    StaysIn w rx rx' ∨ rx' = rx.goto .exited ∨
      (rx' = rx.goto .top ∧ w.yields = true ∧ m.cmd = .reset) ∨ rx' = rx.passed c w := by
  have hstay (pc' : WaitPc) (marked : Bool) (hcommands : pc'.commands = false) :
      StaysIn w rx ({ rx with marked := marked }.goto (.wait w pc')) :=
    ⟨pc', _, _, fun h => absurd (hcommands.symm.trans h) Bool.false_ne_true, rfl⟩
  have htop : StaysIn w rx (rx.waitTop w) := by
    rw [Rx.waitTop]
    split
    · exact hstay _ rx.marked rfl
    · exact hstay _ rx.marked rfl
  have hlap : StaysIn w rx (rx.lap w) := by
    rw [Rx.lap]
    split
    · refine ⟨_, _, _, fun hcommands => ?_, rfl⟩
      split at hcommands
      · exact absurd hcommands Bool.false_ne_true
      · exact absurd hcommands Bool.false_ne_true
    · refine ⟨_, _, _, fun hcommands => ?_, rfl⟩
      split at hcommands
      · exact absurd hcommands Bool.false_ne_true
      · exact absurd hcommands Bool.false_ne_true
  have hleave (hyields : w.yields = true) : StaysIn w rx (rx.leave w) :=
    ⟨_, _, _, fun _ => hyields, rfl⟩
  cases pc with
  | load =>
      obtain ⟨rfl, rfl⟩ := Prod.mk.inj (Option.some.inj hstep)
      split
      · split
        · next hyields => exact Or.inl (hleave hyields)
        · exact Or.inr (Or.inr (Or.inr rfl))
      · split
        · exact Or.inl hlap
        · exact Or.inl (hstay _ rx.marked rfl)
  | shutdown =>
      obtain ⟨rfl, rfl⟩ := Prod.mk.inj (Option.some.inj hstep)
      split
      · exact Or.inr (Or.inl rfl)
      split
      · exact Or.inl (hstay _ rx.marked rfl)
      split
      · next hyields => exact Or.inl ⟨.cmd, _, _, fun _ => hyields, rfl⟩
      · exact Or.inl hlap
  | cmd =>
      obtain ⟨rfl, rfl⟩ := Prod.mk.inj (Option.some.inj hstep)
      split
      · exact Or.inl (hleave (hpc rfl))
      · exact Or.inl hlap
  | mark =>
      obtain ⟨rfl, rfl⟩ := Prod.mk.inj (Option.some.inj hstep)
      exact Or.inl (hstay _ true rfl)
  | observe =>
      obtain ⟨rfl, rfl⟩ := Prod.mk.inj (Option.some.inj hstep)
      exact Or.inl (hstay _ rx.marked rfl)
  | recheck o =>
      obtain ⟨rfl, rfl⟩ := Prod.mk.inj (Option.some.inj hstep)
      split
      · exact Or.inl htop
      split
      · exact Or.inl (hstay _ rx.marked rfl)
      · exact Or.inl (hstay _ rx.marked rfl)
  | recheckCmd o =>
      obtain ⟨rfl, rfl⟩ := Prod.mk.inj (Option.some.inj hstep)
      split
      · exact Or.inl htop
      · exact Or.inl (hstay _ rx.marked rfl)
  | recheckShutdown o =>
      obtain ⟨rfl, rfl⟩ := Prod.mk.inj (Option.some.inj hstep)
      split
      · exact Or.inl htop
      · exact Or.inl (hstay _ rx.marked rfl)
  | sleep o =>
      rw [Rx.waitStep] at hstep
      split at hstep
      · obtain ⟨rfl, rfl⟩ := Prod.mk.inj (Option.some.inj hstep)
        exact Or.inl (hstay _ rx.marked rfl)
      · obtain ⟨rfl, rfl⟩ := Prod.mk.inj (Option.some.inj hstep)
        exact Or.inl htop
  | asleep =>
      rw [Rx.waitStep] at hstep
      split at hstep
      · cases hstep
      · obtain ⟨rfl, rfl⟩ := Prod.mk.inj (Option.some.inj hstep)
        exact Or.inl htop
  | clear =>
      obtain ⟨rfl, rfl⟩ := Prod.mk.inj (Option.some.inj hstep)
      exact Or.inl ⟨.served, _, _, fun _ => hpc rfl, rfl⟩
  | served =>
      obtain ⟨rfl, rfl⟩ := Prod.mk.inj (Option.some.inj hstep)
      split
      · next hcmd => exact Or.inr (Or.inr (Or.inl ⟨rfl, hpc rfl, hcmd⟩))
      · exact Or.inr (Or.inr (Or.inr rfl))

theorem At.passed {w : Wait} {pc : WaitPc} (h : At c t₀ rx slot log (RxPc.wait w pc).stage)
    (hfresh : Fresh t₀) : Streams c t₀ (rx.passed c w) slot' log := by
  cases w with
  | buffer => exact (At.move h .write _ _ _ rfl).streams rfl (waits_off rfl)
  | marker => exact At.enterGate h
  | gate => exact ((At.freeze h).move .markWrite _ _ _ rfl).streams rfl (waits_off rfl)
  | advance =>
      rw [Rx.passed]
      split
      · exact At.bake h hfresh _
      · exact (At.move h .park _ _ _ rfl).streams rfl (waits_off rfl)

/-- A wait that gives way to a command leaves the pass open. -/
theorem At.giveWay (h : At c t₀ rx slot log .ready) : Streams c t₀ (rx.goto .top) slot' log := by
  refine .of_at .between
    ⟨h.static, h.prearm, h.served, ⟨fun rows hsched => ?_, fun rows i hsched => ?_⟩, h.place⟩
    rfl (waits_off rfl)
  · exact ⟨(h.kept.recording rows hsched).1, by decide⟩
  · obtain ⟨hrows, hle, -⟩ := h.kept.play rows i hsched
    exact ⟨hrows, hle, unplayed (by decide)⟩

theorem prearm_program (hprearm : c.prearm = true) : c.autoFn ≠ none := by
  intro hnone
  have hsome := c.elision_armed (c.replay_armed (c.prearm_armed hprearm))
  rw [hnone] at hsome
  cases hsome

/-- A step of the producer, with the record that it publishes. -/
theorem Streams.step {m m' : Mailbox} (h : Streams c t₀ rx (m.ring.slots (c.slot rx.turn)) log)
    (hfresh : Fresh t₀) (hcmd : m.cmd = .reset → c.autoFn = none)
    (hstep : rx.step c m = some (m', rx')) :
    Streams c t₀ rx' (m'.ring.slots (c.slot rx'.turn)) (log ++
      if rx.pc = .store ∨ rx.pc = .markStore then [m.ring.slots (c.slot rx.turn)] else []) := by
  have hwaits := h.waits
  have hhere := h.inside
  rw [Rx.step] at hstep
  by_cases hstore : rx.pc = .store ∨ rx.pc = .markStore
  · rw [if_pos hstore]
    obtain hpc | hpc := hstore <;> rw [hpc] at hstep hhere <;>
      obtain ⟨rfl, rfl⟩ := Prod.mk.inj (Option.some.inj hstep)
    · exact (hhere rfl).store
    · exact (hhere rfl).markStore
  rw [if_neg hstore, List.append_nil]
  cases hpc : rx.pc with
  | top =>
      rw [hpc] at hstep hhere
      obtain ⟨rfl, rfl⟩ := Prod.mk.inj (Option.some.inj hstep)
      cases hm : m.cmd with
      | shutdown => exact (hhere rfl).exit
      | reset => exact (hhere rfl).serve hfresh (hcmd hm) _ _
      | run =>
          exact ((hhere rfl).move .topShutdown _ _ _ rfl).streams rfl (waits_off rfl)
  | park =>
      rw [hpc] at hstep hhere
      obtain ⟨rfl, rfl⟩ := Prod.mk.inj (Option.some.inj hstep)
      cases hm : m.cmd with
      | shutdown => exact (hhere rfl).exit
      | reset => exact (hhere rfl).serve hfresh (hcmd hm) _ _
      | run =>
          exact ((hhere rfl).move .parkShutdown _ _ _ rfl).streams rfl (waits_off rfl)
  | topShutdown =>
      rw [hpc] at hstep hhere
      obtain ⟨rfl, rfl⟩ := Prod.mk.inj (Option.some.inj hstep)
      split
      · exact (hhere rfl).exit
      · exact (hhere rfl).enterTurn
  | wait w pc =>
      rw [hpc] at hstep hhere hwaits
      obtain ⟨hgate, hcommands⟩ := hwaits w pc rfl
      have hidle : (RxPc.wait w pc).stage.filled = false := by
        cases w <;> rfl
      have hstage (pc' : WaitPc) : (RxPc.wait w pc').stage = (RxPc.wait w pc).stage := by
        cases w <;> rfl
      obtain ⟨pc', spins, marked, hcommands', rfl⟩ | rfl | ⟨rfl, hyields, hreset⟩ | rfl :=
        waitStep_rx hcommands hstep
      · apply ((hhere rfl).move (.wait w pc') rx.turn spins marked hidle).streams (hstage pc')
        rintro _ _ ⟨⟩
        exact ⟨hgate, hcommands'⟩
      · exact (hhere rfl).exit
      · cases w with
        | buffer => exact (hhere rfl).giveWay
        | gate => exact absurd (hcmd hreset) (prearm_program (hgate rfl))
        | marker => cases hyields
        | advance => cases hyields
      · exact (hhere rfl).passed hfresh
  | write =>
      rw [hpc] at hstep hhere
      obtain ⟨rfl, rfl⟩ := Prod.mk.inj (Option.some.inj hstep)
      have hslot : (m.ring.put (c.slot rx.turn) rx.produce.2).slots
          (c.slot (rx.produce.1.goto .store).turn) = rx.produce.2 := by
        obtain ⟨inner, sched, idx, eos, hproduce⟩ := produce_eq rx
        rw [hproduce]
        exact Function.update_self ..
      dsimp only
      rw [hslot]
      exact (hhere rfl).write
  | store => exact absurd (Or.inl hpc) hstore
  | markStore => exact absurd (Or.inr hpc) hstore
  | swap =>
      rw [hpc] at hstep hhere
      obtain ⟨rfl, rfl⟩ := Prod.mk.inj (Option.some.inj hstep)
      split
      · exact ((hhere rfl).move .pubBump _ _ _ rfl).streams rfl (waits_off rfl)
      · exact (hhere rfl).afterPublication
  | pubWakeup =>
      rw [hpc] at hstep hhere
      obtain ⟨rfl, rfl⟩ := Prod.mk.inj (Option.some.inj hstep)
      exact (hhere rfl).afterPublication
  | markWrite =>
      rw [hpc] at hstep hhere
      obtain ⟨rfl, rfl⟩ := Prod.mk.inj (Option.some.inj hstep)
      have hslot : (m.ring.put (c.slot rx.turn) PubMeta.EMPTY).slots
          (c.slot (rx.goto .markStore).turn) = PubMeta.EMPTY := Function.update_self ..
      dsimp only
      rw [hslot]
      exact (hhere rfl).markWrite
  | markSwap =>
      rw [hpc] at hstep hhere
      obtain ⟨rfl, rfl⟩ := Prod.mk.inj (Option.some.inj hstep)
      split
      · exact ((hhere rfl).move .markBump _ _ _ rfl).streams rfl (waits_off rfl)
      · exact (hhere rfl).afterMarker hfresh
  | markWakeup =>
      rw [hpc] at hstep hhere
      obtain ⟨rfl, rfl⟩ := Prod.mk.inj (Option.some.inj hstep)
      exact (hhere rfl).afterMarker hfresh
  | ackWake parked =>
      rw [hpc] at hstep hhere
      obtain ⟨rfl, rfl⟩ := Prod.mk.inj (Option.some.inj hstep)
      cases parked with
      | false =>
          exact ((hhere rfl).move .topShutdown _ _ _ rfl).streams rfl (waits_off rfl)
      | true => exact ((hhere rfl).move .top _ _ _ rfl).streams rfl (waits_off rfl)
  | parkShutdown =>
      rw [hpc] at hstep hhere
      obtain ⟨rfl, rfl⟩ := Prod.mk.inj (Option.some.inj hstep)
      split
      · exact (hhere rfl).exit
      · exact ((hhere rfl).move .parkObserve _ _ _ rfl).streams rfl (waits_off rfl)
  | parkCmd o =>
      rw [hpc] at hstep hhere
      obtain ⟨rfl, rfl⟩ := Prod.mk.inj (Option.some.inj hstep)
      split
      · exact ((hhere rfl).move (.parkSleep o) _ _ _ rfl).streams rfl (waits_off rfl)
      · exact ((hhere rfl).move .park _ _ _ rfl).streams rfl (waits_off rfl)
  | parkSleep o =>
      rw [hpc] at hstep hhere
      dsimp only at hstep
      split at hstep
      · obtain ⟨rfl, rfl⟩ := Prod.mk.inj (Option.some.inj hstep)
        exact ((hhere rfl).move .parkAsleep _ _ _ rfl).streams rfl (waits_off rfl)
      · obtain ⟨rfl, rfl⟩ := Prod.mk.inj (Option.some.inj hstep)
        exact ((hhere rfl).move .park _ _ _ rfl).streams rfl (waits_off rfl)
  | parkAsleep =>
      rw [hpc] at hstep hhere
      dsimp only at hstep
      split at hstep
      · cases hstep
      · obtain ⟨rfl, rfl⟩ := Prod.mk.inj (Option.some.inj hstep)
        exact ((hhere rfl).move .park _ _ _ rfl).streams rfl (waits_off rfl)
  | exited =>
      rw [hpc] at hstep
      cases hstep
  | ackTurn parked =>
      rw [hpc] at hstep hhere
      obtain ⟨rfl, rfl⟩ := Prod.mk.inj (Option.some.inj hstep)
      exact ((hhere rfl).move (.ackCnt parked) _ _ _ rfl).streams rfl (waits_off rfl)
  | ackCnt parked =>
      rw [hpc] at hstep hhere
      obtain ⟨rfl, rfl⟩ := Prod.mk.inj (Option.some.inj hstep)
      exact ((hhere rfl).move (.ackRun parked) _ _ _ rfl).streams rfl (waits_off rfl)
  | ackRun parked =>
      rw [hpc] at hstep hhere
      obtain ⟨rfl, rfl⟩ := Prod.mk.inj (Option.some.inj hstep)
      exact ((hhere rfl).move (.ackBump parked) _ _ _ rfl).streams rfl (waits_off rfl)
  | ackBump parked =>
      rw [hpc] at hstep hhere
      obtain ⟨rfl, rfl⟩ := Prod.mk.inj (Option.some.inj hstep)
      exact ((hhere rfl).move (.ackWake parked) _ _ _ rfl).streams rfl (waits_off rfl)
  | turnStore =>
      rw [hpc] at hstep hhere
      obtain ⟨rfl, rfl⟩ := Prod.mk.inj (Option.some.inj hstep)
      exact ((hhere rfl).move .swap _ _ _ rfl).streams rfl (waits_off rfl)
  | pubBump =>
      rw [hpc] at hstep hhere
      obtain ⟨rfl, rfl⟩ := Prod.mk.inj (Option.some.inj hstep)
      exact ((hhere rfl).move .pubWakeup _ _ _ rfl).streams rfl (waits_off rfl)
  | markEos =>
      rw [hpc] at hstep hhere
      obtain ⟨rfl, rfl⟩ := Prod.mk.inj (Option.some.inj hstep)
      exact ((hhere rfl).move .markTurn _ _ _ rfl).streams rfl (waits_off rfl)
  | markTurn =>
      rw [hpc] at hstep hhere
      obtain ⟨rfl, rfl⟩ := Prod.mk.inj (Option.some.inj hstep)
      exact ((hhere rfl).move .markSwap _ _ _ rfl).streams rfl (waits_off rfl)
  | markBump =>
      rw [hpc] at hstep hhere
      obtain ⟨rfl, rfl⟩ := Prod.mk.inj (Option.some.inj hstep)
      exact ((hhere rfl).move .markWakeup _ _ _ rfl).streams rfl (waits_off rfl)
  | bakeTurn =>
      rw [hpc] at hstep hhere
      obtain ⟨rfl, rfl⟩ := Prod.mk.inj (Option.some.inj hstep)
      exact ((hhere rfl).move .bakePass _ _ _ rfl).streams rfl (waits_off rfl)
  | bakePass =>
      rw [hpc] at hstep hhere
      obtain ⟨rfl, rfl⟩ := Prod.mk.inj (Option.some.inj hstep)
      exact ((hhere rfl).move .advBump _ _ _ rfl).streams rfl (waits_off rfl)
  | advBump =>
      rw [hpc] at hstep hhere
      obtain ⟨rfl, rfl⟩ := Prod.mk.inj (Option.some.inj hstep)
      exact ((hhere rfl).move .advWake _ _ _ rfl).streams rfl (waits_off rfl)
  | advWake =>
      rw [hpc] at hstep hhere
      obtain ⟨rfl, rfl⟩ := Prod.mk.inj (Option.some.inj hstep)
      exact ((hhere rfl).move .top _ _ _ rfl).streams rfl (waits_off rfl)
  | parkObserve =>
      rw [hpc] at hstep hhere
      obtain ⟨rfl, rfl⟩ := Prod.mk.inj (Option.some.inj hstep)
      exact ((hhere rfl).move (.parkCmd m.wake) _ _ _ rfl).streams rfl (waits_off rfl)

/-- A return from a futex wait that nobody woke. -/
theorem Streams.spurious {m : Mailbox} {r : Mailbox × Rx} (h : Streams c t₀ rx slot log)
    (hstep : rx.spurious m = some r) : Streams c t₀ r.2 slot' log := by
  have hwaits := h.waits
  have hhere := h.inside
  rw [Rx.spurious] at hstep
  split at hstep
  · next w hpc =>
    rw [hpc] at hhere hwaits
    obtain rfl := Option.some.inj hstep
    have hidle : (RxPc.wait w .asleep).stage.filled = false := by
      cases w <;> rfl
    apply ((hhere rfl).move _ _ _ _ hidle).streams _ (waits_at (hwaits w _ rfl).1)
    cases w <;> rfl
  · next hpc =>
    rw [hpc] at hhere
    obtain rfl := Option.some.inj hstep
    exact ((hhere rfl).move .park _ _ _ rfl).streams rfl (waits_off rfl)
  · cases hstep

end Steps

/-! ## The consumer beside the stream -/

section Consumer

variable {c : Config} {s s' : State}

/-- A reset with the command, which a transport with a program refuses. -/
def Call.commands : Call → Bool
  | .reset _ => true
  | _ => false

/-- A point on the way of a reset with the command. -/
def ConsPc.commands : ConsPc → Bool
  | .drain call | .drainFlag call | .drainSwap call | .drainBump call | .drainWakeup call =>
      call.commands
  | .resetCnt | .resetCmd | .resetBump | .resetWakeup => true
  | .ack | .ackObserve | .ackRecheck _ | .ackSleep _ | .ackAsleep | .ackTurn | .ackFree _ _ => true
  | _ => false

theorem afterDrain_apart {m : Mailbox} {k : Cons} {call : Call} (h : call.commands = false) :
    (k.afterDrain m call).2.pc.commands = false ∧ (k.afterDrain m call).1.cmd = m.cmd := by
  cases call with
  | reset session => cases h
  | _ => exact ⟨rfl, rfl⟩

theorem afterDrain_ring (m : Mailbox) (k : Cons) (call : Call) :
    (k.afterDrain m call).1.ring = m.ring := by
  cases call <;> rfl

theorem loadStep_eq (s : State) {call : Call} (hpc : s.cons.pc = .load call) :
    ∃ k, s.loadStep c call = s.withCons k ∧ k.pc.commands = false := by
  rw [State.loadStep]
  split
  · split
    · exact ⟨_, rfl, rfl⟩
    · exact ⟨_, rfl, rfl⟩
  · split
    · exact ⟨_, rfl, hpc ▸ rfl⟩
    · split
      · exact ⟨_, rfl, rfl⟩
      · exact ⟨_, rfl, rfl⟩

theorem lenStep_eq (s : State) (call : Call) :
    ∃ k reads, s.lenStep c call = { s with cons := k, reads := reads } ∧
      k.pc.commands = false := by
  by_cases hlen : (s.record c s.cons.turn).len = 0
  · have heq : s.lenStep c call = _ := if_pos hlen
    rw [heq]
    exact ⟨_, _, rfl, rfl⟩
  · have heq : s.lenStep c call = _ := if_neg hlen
    rw [heq]
    cases call <;> exact ⟨_, _, rfl, rfl⟩

theorem passStep_eq (s : State) (target baked : ℕ) (session : SessionId) :
    ∃ k, s.passStep target baked session = s.withCons k ∧ k.pc.commands = false := by
  rw [State.passStep]
  split
  · split
    · exact ⟨_, rfl, rfl⟩
    · exact ⟨_, rfl, rfl⟩
  · exact ⟨_, rfl, rfl⟩

/-- Outside a reset no step of the consumer leads into one, nor sends its command. -/
theorem consStep_apart (hstep : s.consStep c = some s') (hpc : s.cons.pc.commands = false) :
    s'.cons.pc.commands = false ∧ (s'.mail.cmd = s.mail.cmd ∨ s'.mail.cmd = .shutdown) := by
  rw [State.consStep] at hstep
  cases hk : s.cons.pc with
  | load call =>
      rw [hk] at hstep
      obtain rfl := Option.some.inj hstep
      obtain ⟨k, heq, hout⟩ := loadStep_eq s hk
      rw [heq]
      exact ⟨hout, Or.inl rfl⟩
  | len call =>
      rw [hk] at hstep
      obtain rfl := Option.some.inj hstep
      obtain ⟨k, reads, heq, hout⟩ := lenStep_eq s call
      rw [heq]
      exact ⟨hout, Or.inl rfl⟩
  | passBake target baked session =>
      rw [hk] at hstep
      obtain rfl := Option.some.inj hstep
      obtain ⟨k, heq, hout⟩ := passStep_eq s target baked session
      rw [heq]
      exact ⟨hout, Or.inl rfl⟩
  | drainWakeup call =>
      rw [hk] at hstep hpc
      obtain rfl := Option.some.inj hstep
      exact ⟨(afterDrain_apart hpc).1, Or.inl (afterDrain_apart hpc).2⟩
  | _ =>
      -- At every other point the step is written out.
      rw [hk] at hstep hpc
      dsimp only at hstep
      repeat' split at hstep
      all_goals first
        | exact absurd hpc.symm Bool.false_ne_true
        | (cases hstep; done)
        | (obtain rfl := Option.some.inj hstep
           first
             | exact ⟨rfl, Or.inl rfl⟩
             | exact ⟨rfl, Or.inr rfl⟩
             | exact ⟨hpc, Or.inl rfl⟩
             | exact ⟨(afterDrain_apart hpc).1, Or.inl (afterDrain_apart hpc).2⟩)

/-- The command is in force only where no program is. -/
structure Armed (c : Config) (s : State) : Prop where
  pc : s.cons.pc.commands = true → c.autoFn = none
  cmd : s.mail.cmd = .reset → c.autoFn = none

theorem Armed.cons_step (h : Armed c s) (hstep : s.consStep c = some s') : Armed c s' := by
  cases hpc : s.cons.pc.commands with
  | true => exact ⟨fun _ => h.pc hpc, fun _ => h.pc hpc⟩
  | false =>
      obtain ⟨hout, hcmd⟩ := consStep_apart hstep hpc
      refine ⟨fun hin => absurd (hout.symm.trans hin) Bool.false_ne_true, fun hreset => ?_⟩
      obtain hsame | hshut := hcmd
      · exact h.cmd (hsame.symm.trans hreset)
      · cases hshut.symm.trans hreset

/-- The producer withdraws commands and sends none. -/
theorem rxStep_cmd {m m' : Mailbox} {rx rx' : Rx} (hstep : rx.step c m = some (m', rx')) :
    m'.cmd = m.cmd ∨ m'.cmd = .run := by
  rw [Rx.step] at hstep
  cases hpc : rx.pc with
  | wait w pc =>
      rw [hpc] at hstep
      dsimp only at hstep
      cases pc <;> rw [Rx.waitStep] at hstep <;> (repeat' split at hstep) <;>
        first
          | (cases hstep; done)
          | (obtain ⟨rfl, -⟩ := Prod.mk.inj (Option.some.inj hstep)
             exact Or.inl rfl)
  | _ =>
      rw [hpc] at hstep
      dsimp only at hstep
      repeat' split at hstep
      all_goals first
        | (cases hstep; done)
        | (obtain ⟨rfl, -⟩ := Prod.mk.inj (Option.some.inj hstep)
           first
             | exact Or.inl rfl
             | exact Or.inr rfl)

theorem Armed.step (h : Armed c s) {a : Act} (hstep : step c s a = some s') : Armed c s' := by
  cases a with
  | cons => exact h.cons_step hstep
  | rx =>
      obtain ⟨r, hr, rfl⟩ := Option.map_eq_some_iff.mp hstep
      refine ⟨h.pc, fun hreset => ?_⟩
      obtain hsame | hrun := rxStep_cmd hr
      · exact h.cmd (hsame.symm.trans hreset)
      · cases hrun.symm.trans hreset
  | rxReturn =>
      obtain ⟨r, hr, rfl⟩ := Option.map_eq_some_iff.mp hstep
      rw [Rx.spurious] at hr
      split at hr <;> cases hr <;> exact ⟨h.pc, h.cmd⟩
  | consReturn =>
      have hstep : s.consReturn = some s' := hstep
      rw [State.consReturn] at hstep
      dsimp only at hstep
      split at hstep
      · cases hstep
        exact ⟨fun hpc => (by cases hpc), h.cmd⟩
      · next hpc =>
        cases hstep
        exact ⟨fun _ => h.pc (hpc ▸ rfl), h.cmd⟩
      · cases hstep
        exact ⟨fun hpc => (by cases hpc), h.cmd⟩
      · cases hstep
  | call call =>
      rw [Pipeline.step] at hstep
      split at hstep
      · next hpc =>
        cases hstep
        refine ⟨fun hin => ?_, h.cmd⟩
        cases call with
        | reset session =>
            by_contra hsome
            have hcommands : ((s.cons.start c (.reset session)).pc).commands = true := hin
            rw [Cons.start, if_neg (by rwa [Option.isNone_iff_eq_none])] at hcommands
            cases hcommands
        | selectGroupBatch j =>
            have hidle : (s.cons.start c (.selectGroupBatch j)).pc = .idle := by
              rw [Cons.start]
              split <;> exact hpc
            have hcommands : ((s.cons.start c (.selectGroupBatch j)).pc).commands = true := hin
            rw [hidle] at hcommands
            cases hcommands
        | resetPass target session =>
            have hcommands : ((s.cons.start c (.resetPass target session)).pc).commands = true :=
              hin
            rw [Cons.start] at hcommands
            split at hcommands <;> cases hcommands
        | nextBatch => cases hin
        | nextGroup k => cases hin
        | drop => cases hin
      · cases hstep

/-- What the producer and the history have is not the consumer's to change. -/
structure Apart (s s' : State) : Prop where
  rx : s'.rx = s.rx
  log : s'.log = s.log
  slots : s'.mail.ring.slots = s.mail.ring.slots

theorem consStep_frame (hstep : s.consStep c = some s') : Apart s s' := by
  rw [State.consStep] at hstep
  cases hk : s.cons.pc with
  | load call =>
      rw [hk] at hstep
      obtain rfl := Option.some.inj hstep
      obtain ⟨k, heq, -⟩ := loadStep_eq s hk
      rw [heq]
      exact ⟨rfl, rfl, rfl⟩
  | len call =>
      rw [hk] at hstep
      obtain rfl := Option.some.inj hstep
      obtain ⟨k, reads, heq, -⟩ := lenStep_eq s call
      rw [heq]
      exact ⟨rfl, rfl, rfl⟩
  | passBake target baked session =>
      rw [hk] at hstep
      obtain rfl := Option.some.inj hstep
      obtain ⟨k, heq, -⟩ := passStep_eq s target baked session
      rw [heq]
      exact ⟨rfl, rfl, rfl⟩
  | _ =>
      rw [hk] at hstep
      dsimp only at hstep
      repeat' split at hstep
      all_goals first
        | (cases hstep; done)
        | (obtain rfl := Option.some.inj hstep
           first
             | exact ⟨rfl, rfl, rfl⟩
             | exact ⟨rfl, rfl, congrArg Words.slots (afterDrain_ring _ _ _)⟩)

theorem streams_step {t₀ : ReplayTransport} (hfresh : Fresh t₀) (harmed : Armed c s)
    (h : Streams c t₀ s.rx (s.record c s.rx.turn) s.log) {a : Act} (hstep : step c s a = some s') :
    Streams c t₀ s'.rx (s'.record c s'.rx.turn) s'.log := by
  have hapart : Apart s s' → Streams c t₀ s'.rx (s'.record c s'.rx.turn) s'.log := fun hs => by
    rw [State.record, hs.rx, hs.log, hs.slots]
    exact h
  cases a with
  | cons => exact hapart (consStep_frame hstep)
  | rx =>
      obtain ⟨r, hr, rfl⟩ := Option.map_eq_some_iff.mp hstep
      exact h.step hfresh harmed.cmd hr
  | rxReturn =>
      obtain ⟨r, hr, rfl⟩ := Option.map_eq_some_iff.mp hstep
      exact h.spurious hr
  | consReturn =>
      have hstep : s.consReturn = some s' := hstep
      rw [State.consReturn] at hstep
      dsimp only at hstep
      split at hstep <;> cases hstep <;> exact hapart ⟨rfl, rfl, rfl⟩
  | call call =>
      rw [Pipeline.step] at hstep
      split at hstep
      · cases hstep
        exact hapart ⟨rfl, rfl, rfl⟩
      · cases hstep

end Consumer

theorem streams_init (c : Config) {t₀ : ReplayTransport} :
    Streams c t₀ (init c t₀).rx ((init c t₀).record c (init c t₀).rx.turn) (init c t₀).log := by
  refine .of_at .between ⟨⟨rfl, rfl, rfl, rfl, rfl, rfl⟩, id,
    fun hserved => absurd hserved (Nat.lt_irrefl 0), ⟨?_, ?_⟩, [],
    ⟨[], rfl, rfl, fun _ hmem => absurd hmem List.not_mem_nil, Nat.le_refl 0⟩, ?_⟩ rfl
    (waits_off rfl)
  · intro rows hrec
    have hrec : (if c.schedReplay then RxSched.recording [] else .off) = .recording rows := hrec
    split at hrec
    · obtain rfl := RxSched.recording.inj hrec
      exact ⟨rfl, by decide⟩
    · cases hrec
  · intro rows i hplay
    have hplay : (if c.schedReplay then RxSched.recording [] else .off) = .play rows i := hplay
    split at hplay
    · cases hplay
    · cases hplay
  · have hleft : (init c t₀).rx.left .between = walk t₀ 0 := by
      have hsched : (init c t₀).rx.sched = if c.schedReplay then RxSched.recording [] else .off :=
        rfl
      rw [Rx.left, hsched]
      cases c.schedReplay with
      | true => rfl
      | false => rfl
    rw [Rx.ahead, hleft]
    rfl

section Runs

variable {c : Config} {t₀ : ReplayTransport} {s : State}

theorem streams_of_reachable (hfresh : Fresh t₀)
    (h : Transition.Reachable (step c) (init c t₀) s) :
    Streams c t₀ s.rx (s.record c s.rx.turn) s.log := by
  have hinv : Armed c s ∧ Streams c t₀ s.rx (s.record c s.rx.turn) s.log := by
    refine Transition.invariant (P := fun s => Armed c s ∧
      Streams c t₀ s.rx (s.record c s.rx.turn) s.log) (fun s a s' hs hstep => ?_) ?_ h
    · exact ⟨hs.1.step hstep, streams_step hfresh hs.1 hs.2 hstep⟩
    · exact ⟨⟨fun hpc => (by cases hpc), fun hcmd => by cases hcmd⟩, streams_init c⟩
  exact hinv.2

/-- Without a served reset no pass is cut short. -/
theorem Cut.whole {full seg : List PubMeta} {log : List PubMeta} {pass : ℕ}
    (h : Cut full log pass 0 seg) (hseg : seg <+: full) :
    log <+: (List.replicate (pass + 1) full).flatten := by
  obtain ⟨segs, hlog, hlen, -, hcount⟩ := h
  have hall : segs = List.replicate pass full := by
    apply List.eq_replicate_iff.mpr
    refine ⟨by omega, fun whole hwhole => ?_⟩
    rw [Nat.le_zero, List.countP_eq_zero] at hcount
    simpa using hcount whole hwhole
  rw [hlog, hall, List.replicate_succ', List.flatten_append, List.flatten_singleton]
  exact (List.prefix_append_right_inj _).mpr hseg

theorem log_of_program (hfresh : Fresh t₀) (hprogram : c.autoFn ≠ none)
    (h : Transition.Reachable (step c) (init c t₀) s) :
    s.log <+: (List.replicate (s.rx.pass + 1) (passRecords t₀)).flatten := by
  have hstreams := streams_of_reachable hfresh h
  have hnone : s.rx.served = 0 := Nat.eq_zero_of_not_pos fun hpos => hprogram (hstreams.served hpos)
  obtain ⟨seg, hcut, hseg⟩ := hstreams.place
  rw [hnone] at hcut
  exact hcut.whole hseg

/-- A record of the log is one of a pass. -/
theorem mem_of_place {pub : PubMeta} (hfresh : Fresh t₀)
    (h : Transition.Reachable (step c) (init c t₀) s) (hpub : pub ∈ s.log) :
    pub ∈ passRecords t₀ := by
  obtain ⟨seg, ⟨segs, hlog, -, hsegs, -⟩, hseg⟩ := (streams_of_reachable hfresh h).place
  rw [hlog] at hpub
  obtain hold | hnew := List.mem_append.mp hpub
  · obtain ⟨s, hs, hin⟩ := List.mem_flatten.mp hold
    exact (hsegs s hs).subset hin
  · exact hseg.subset hnew

end Runs

/-- In every run the records published are whole passes of the same records, one after the other
and the last one still going on; only the serve of a reset cuts a pass short, and a transport with
a program serves none. -/
theorem publishes_passes (c : Config) {t₀ : ReplayTransport} (hfresh : Fresh t₀) {s : State}
    (h : Transition.Reachable (step c) (init c t₀) s) :
    (∃ seg, Cut (passRecords t₀) s.log s.rx.pass s.rx.served seg ∧ seg <+: passRecords t₀) ∧
      (c.autoFn ≠ none →
        s.log <+: (List.replicate (s.rx.pass + 1) (passRecords t₀)).flatten) :=
  ⟨(streams_of_reachable hfresh h).place, fun hprogram => log_of_program hfresh hprogram h⟩

theorem firstBatch_log : ∃ s, Transition.run (step selfAdvancing) started firstBatch = some s ∧
    s.log = [⟨2, 0, 2⟩] :=
  Option.map_eq_some_iff.mp (by decide +kernel)

theorem publishes_passes_firstBatch :
    ∃ s, Transition.run (step selfAdvancing) started firstBatch = some s ∧ s.log = [⟨2, 0, 2⟩] ∧
      s.log <+: (List.replicate (s.rx.pass + 1) (passRecords
        ((new [] twoHeartbeats (.repeated 0)).setPollCoalesce 1))).flatten := by
  obtain ⟨s, hrun, hlog⟩ := firstBatch_log
  have hfresh := new_fresh [] twoHeartbeats (.repeated 0) 1
  exact ⟨s, hrun, hlog,
    (publishes_passes selfAdvancing hfresh ⟨firstBatch, hrun⟩).2 (Option.some_ne_none _)⟩

/-! ## Slices of the master -/

theorem tiles_le {idx : ℕ} {pubs : List PubMeta} (h : Tiles idx pubs) {pub : PubMeta}
    (hpub : pub ∈ pubs) : pub.rxStart + pub.len ≤ idx + (pubs.map PubMeta.len).sum := by
  induction pubs generalizing idx with
  | nil => cases hpub
  | cons first pubs ih =>
      obtain ⟨hstart, hrest⟩ := h
      rw [List.map_cons, List.sum_cons, ← Nat.add_assoc]
      obtain rfl | hin := List.mem_cons.mp hpub
      · rw [hstart]
        exact Nat.le_add_right _ _
      · exact ih hrest hin

/-- The frames that a pass publishes are in the directory. -/
theorem passFrames_le {t₀ : ReplayTransport} (hfresh : Fresh t₀) :
    ((walk t₀ 0).map PubMeta.len).sum ≤ t₀.emittedMetas.length := by
  have hstart : 0 = (listed t₀.metas 0 t₀.eventIdx).length := by
    rw [hfresh.eventIdx, listed_self]
    rfl
  have hbounded := walk_bounded t₀ hstart
  rwa [Nat.zero_add] at hbounded

/-- In every run, each publication names a slice within the master, and fits the entry array of a
buffer. -/
theorem slices_in_bounds (c : Config) {t₀ : ReplayTransport} (hfresh : Fresh t₀)
    (computeElig : Bool) {s : State} (h : Transition.Reachable (step c) (init c t₀) s) :
    ∀ pub ∈ s.log, pub.rxStart + pub.len ≤ (t₀.buildFrameMaster computeElig).entries.length ∧
      pub.len ≤ ENTRY_CAP := by
  have hpass : ∀ pub ∈ passRecords t₀, pub.rxStart + pub.len ≤ t₀.emittedMetas.length ∧
      pub.len ≤ ENTRY_CAP := by
    intro pub hpub
    obtain hwalk | hmarker := List.mem_append.mp hpub
    · have hle := tiles_le (walk_tiles t₀ 0) hwalk
      rw [Nat.zero_add] at hle
      exact ⟨hle.trans (passFrames_le hfresh), (walk_sized t₀ 0).1 pub hwalk⟩
    · rw [List.mem_singleton.mp hmarker]
      exact ⟨Nat.zero_le _, Nat.zero_le _⟩
  intro pub hpub
  have hlen : (t₀.buildFrameMaster computeElig).entries.length = t₀.emittedMetas.length :=
    List.length_map _
  rw [hlen]
  exact hpass pub (mem_of_place hfresh h hpub)

theorem slices_in_bounds_firstBatch :
    ∃ s, Transition.run (step selfAdvancing) started firstBatch = some s ∧ s.log = [⟨2, 0, 2⟩] ∧
      2 ≤ (((new [] twoHeartbeats (.repeated 0)).setPollCoalesce 1).buildFrameMaster
        false).entries.length := by
  obtain ⟨s, hrun, hlog⟩ := firstBatch_log
  have hfresh := new_fresh [] twoHeartbeats (.repeated 0) 1
  have hslice := slices_in_bounds selfAdvancing hfresh false ⟨firstBatch, hrun⟩ ⟨2, 0, 2⟩
    (hlog ▸ List.mem_singleton_self _)
  exact ⟨s, hrun, hlog, hslice.1⟩

end HftProj.Transport.Pipeline
