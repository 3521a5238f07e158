import HftProj.Arbitrator.Calls
import HftProj.Arbitrator.Overflow
import HftProj.Arbitrator.Requests

/-!
# The engine loop

`run_engine` turns a poll of the transport, the datagrams waiting on the recovery socket and
the clock into sink calls and retransmission requests. Start-up probing, allocation counting
and the printed verdict are left out.
-/

namespace HftProj.Engine

open HftProj.Lib HftProj.Protocol HftProj.Protocol.Moldudp64 HftProj.Arbitrator

def FEED_R : FeedId := 2

/-- Length of the buffer a recovery datagram is read into. -/
def REC_SLOT_LEN : ℕ := 1500

/-- A polled frame with what the transport has computed for it. -/
structure BatchFrame where
  bytes : List UInt8
  feed : FeedId
  blocks : List Triple
  memo : Option FrameMemo

/-- What one turn of the loop finds: the polled batch, the time and the waiting datagrams. -/
structure Turn where
  batch : List BatchFrame
  nowNs : ℕ
  datagrams : List (List UInt8)

/-- The transport's index and memo are those of its frames. -/
def Turn.Indexed (t : Turn) : Prop :=
  ∀ f ∈ t.batch, Arbitrator.Indexed f.bytes f.blocks ∧ Memoized f.bytes f.blocks f.memo

/-- The locals of the loop; `session` and `recoveryClient` are set at start-up. -/
structure Loop where
  session : SessionId
  recoveryClient : Bool
  seq : Sequencer
  retryCount : ℕ
  lastPendingTo : Option ℕ
  stopped : Bool

inductive Effect where
  | sink (call : SinkCall)
  | request (bytes : List UInt8)
  deriving DecidableEq

/-- The packets `recv_packet` hands over before it returns none: an empty datagram counts as
none, a long one is cut. -/
def recvPackets (datagrams : List (List UInt8)) : List (List UInt8) :=
  (datagrams.takeWhile fun d => d ≠ []).map fun d => d.take REC_SLOT_LEN

/-- P-ORDER 1: ingest recovery packets. -/
def ingestRecovery (nowNs : ℕ) (s : Sequencer) (packets : List (List UInt8)) : Emitting :=
  Machine.run (fun s packet => s.ingest packet FEED_R nowNs) s packets

/-- P-ORDER 2: ingest the polled batch; the sink does not ask for spans. -/
def ingestFrames (nowNs : ℕ) (s : Sequencer) (batch : List BatchFrame) : Emitting :=
  Machine.run (fun s f => s.ingestAuto false f.bytes f.feed nowNs f.blocks f.memo) s batch

namespace Loop

def start (session : SessionId) (recoveryClient : Bool) : Loop where
  session := session
  recoveryClient := recoveryClient
  seq := .new
  retryCount := 0
  lastPendingTo := none
  stopped := false

/-- The loop goes on with this turn. -/
def Runs (e : Loop) (t : Turn) : Prop :=
  e.stopped = false ∧
    (0 < t.batch.length ∨ e.seq.state = .contig ∨ e.seq.state = .init ∨
      e.seq.state = .eosPersist) ∧ e.seq.state ≠ .dead

instance (e : Loop) (t : Turn) : Decidable (e.Runs t) := by
  unfold Runs
  infer_instance

/-- The packets read from the recovery socket in a turn. -/
def received (e : Loop) (t : Turn) : List (List UInt8) :=
  if e.recoveryClient then recvPackets t.datagrams else []

/-- The sequencer after the packets and frames of a turn. -/
def ingestTurn (e : Loop) (t : Turn) : Emitting :=
  (ingestRecovery t.nowNs e.seq (e.received t)).andThen fun s => ingestFrames t.nowNs s t.batch

def sendRequest (e : Loop) (intent : RecoveryIntent) : Traced Loop Effect :=
  let count := (intent.toExcl - intent.fromSeq) % 2 ^ 16
  (e, if e.recoveryClient then [.request (encodeRequest e.session intent.fromSeq count)] else [])

/-- P-ORDER 3: evaluate the recovery intent; the fourth repetition seals the sequencer. -/
def evaluateIntent (e : Loop) (nowNs : ℕ) : Traced Loop Effect :=
  let r := e.seq.checkRecoveryIntent nowNs
  let e := { e with seq := r.1 }
  match r.2 with
  | none => (e, [])
  | some intent =>
      if e.lastPendingTo ≠ some intent.toExcl then
        { e with lastPendingTo := some intent.toExcl, retryCount := 0 }.sendRequest intent
      else if e.retryCount + 1 ≥ 4 then
        let sealing := e.seq.sealDead .retryExhausted
        ({ e with seq := sealing.1, retryCount := e.retryCount + 1, stopped := true },
          sealing.2.map .sink)
      else { e with retryCount := e.retryCount + 1 }.sendRequest intent

/-- One turn of the loop. -/
def turn (e : Loop) (t : Turn) : Traced Loop Effect :=
  if e.Runs t then
    let r := e.ingestTurn t
    let r' := { e with seq := r.1 }.evaluateIntent t.nowNs
    ({ r'.1 with stopped := r'.1.stopped || decide (r'.1.seq.state = .ended) },
      r.2.map .sink ++ r'.2)
  else ({ e with stopped := true }, [])

end Loop

def runEngine (session : SessionId) (recoveryClient : Bool) (turns : List Turn) :
    Traced Loop Effect :=
  Machine.run Loop.turn (.start session recoveryClient) turns

/-! ## Foreign answers -/

/-- The session id a packet starts with. -/
def packetSession (packet : List UInt8) : Option SessionId :=
  if h : 10 ≤ packet.length then some ⟨packet.take 10, List.length_take_of_le h⟩ else none

/-- Nothing is emitted, and session, watermark, window and gap state are as before. -/
structure Undisturbed (s : Sequencer) (r : Emitting) : Prop where
  calls : r.2 = []
  session : r.1.session = s.session
  w : r.1.w = s.w
  window : r.1.window = s.window
  gapActive : r.1.gapActive = s.gapActive
  evidenceHwm : r.1.evidenceHwm = s.evidenceHwm

/-- The turn reads the packet from the recovery socket while the sequencer is in state `s`. -/
def Loop.Receives (e : Loop) (t : Turn) (s : Sequencer) (packet : List UInt8) : Prop :=
  e.Runs t ∧ ∃ before after, e.received t = before ++ packet :: after ∧
    s = (ingestRecovery t.nowNs e.seq before).1

/-- A packet with a complete header starts with the header's session. -/
theorem packetSession_of_header {packet : List UInt8} {hdr : Header}
    (h : parseHeader packet = .ok hdr) : packetSession packet = some hdr.session := by
  obtain ⟨hlen, hsession, -⟩ := parseHeader_ok h
  unfold HEADER_LEN at hlen
  exact (dif_pos (by omega)).trans (congrArg some (Subtype.ext hsession.symm))

section Session

variable {s : Sequencer} {packet : List UInt8} {hdr : Header}

/-- A live sequencer takes over the session of every packet with a header. -/
theorem ingest_session (hlive : s.state ≠ .dead) (h : parseHeader packet = .ok hdr)
    (feed : FeedId) (nowNs : ℕ) : (s.ingest packet feed nowNs).1.session = hdr.session := by
  rw [Sequencer.ingest_eq hlive h, Traced.andThen_fst]
  have hkind := congrArg Prod.fst (Sequencer.ingestKind_identity
    ((s.countPacket packet feed).dispatchSession hdr.session).1 packet hdr feed nowNs)
  exact hkind.trans
    (Sequencer.dispatched_session (Sequencer.dispatchSession_dispatched _ hdr.session))

theorem ingestKind_live (hlive : s.state ≠ .dead) (hdr : Header) (feed : FeedId) (nowNs : ℕ) :
    (s.ingestKind packet hdr feed nowNs).1.state ≠ .dead := by
  have hframe : ∀ (t : Sequencer) first last, t.state ≠ .dead →
      (t.applyFrame packet hdr first last nowNs).1.state ≠ .dead := by
    intro t first last ht
    rcases t.applyFrame_state packet hdr first last nowNs with h | h | h
    · exact h ▸ ht
    · exact h ▸ nofun
    · exact h ▸ nofun
  unfold Sequencer.ingestKind
  split
  · rcases s.handleHeartbeat_state hdr.seq nowNs with h | ⟨-, -, -, h⟩
    · exact h ▸ hlive
    · exact h ▸ nofun
  split
  · dsimp only
    generalize ht : (if s.mutation = .dropStagedAtEos then _ else s) = t
    have hstate : t.state = s.state := by
      rw [← ht]
      split <;> rfl
    rcases t.handleEos_state hdr with ⟨-, h⟩ | ⟨-, h⟩ | ⟨-, -, -, h | h⟩
    · exact h ▸ nofun
    · rw [h, hstate]
      exact hlive
    · exact h ▸ nofun
    · exact h ▸ nofun
  unfold Sequencer.ingestData
  split
  · exact hlive
  cases hdr.span with
  | none => exact hlive
  | some span =>
      dsimp only
      split
      · exact hframe _ _ _ nofun
      split
      · exact hlive
      · exact hframe _ _ _ hlive

/-- No packet seals the sequencer. -/
theorem ingest_live (hlive : s.state ≠ .dead) (packet : List UInt8) (feed : FeedId)
    (nowNs : ℕ) : (s.ingest packet feed nowNs).1.state ≠ .dead := by
  cases h : parseHeader packet with
  | error e =>
      unfold Sequencer.ingest
      rw [h]
      dsimp only
      split <;> exact hlive
  | ok hdr =>
      rw [Sequencer.ingest_eq hlive h, Traced.andThen_fst]
      refine ingestKind_live ?_ hdr feed nowNs
      have hcount : (s.countPacket packet feed).state ≠ .dead := hlive
      exact Sequencer.dispatched_live (Sequencer.dispatchSession_dispatched _ hdr.session) hcount

end Session

theorem ingestRecovery_live (nowNs : ℕ) {s : Sequencer} (hlive : s.state ≠ .dead)
    (packets : List (List UInt8)) : (ingestRecovery nowNs s packets).1.state ≠ .dead := by
  unfold ingestRecovery
  induction packets generalizing s with
  | nil => exact hlive
  | cons packet packets ih => exact ih (ingest_live hlive packet FEED_R nowNs)

/-- Recovery packets are not filtered by session: one of a foreign session disturbs the
sequencer unless it is too short to have a header. -/
theorem foreign_answer_intrudes (session : SessionId) (recoveryClient : Bool) (turns : List Turn)
    (t : Turn) (s : Sequencer) (packet : List UInt8)
    (h : (runEngine session recoveryClient turns).1.Receives t s packet) :
    (packetSession packet ≠ some s.session →
        Undisturbed s (s.ingest packet FEED_R t.nowNs)) ↔
      packetSession packet = some s.session ∨ packet.length < HEADER_LEN := by
  obtain ⟨⟨-, -, hlive⟩, before, after, -, rfl⟩ := h
  have hlive' := ingestRecovery_live t.nowNs hlive before
  generalize (ingestRecovery t.nowNs _ before).1 = s at hlive'
  constructor
  · intro hquiet
    by_contra! hforeign
    obtain ⟨hsession, hlen⟩ := hforeign
    have hparse : ∃ hdr, parseHeader packet = .ok hdr := ⟨_, dif_neg (Nat.not_lt.mpr hlen)⟩
    obtain ⟨hdr, hhdr⟩ := hparse
    have hsame := (hquiet hsession).session
    rw [ingest_session hlive' hhdr] at hsame
    exact hsession ((packetSession_of_header hhdr).trans (congrArg some hsame))
  · intro hshort hsession
    have hrun : s.ingest packet FEED_R t.nowNs =
        ((s.countPacket packet FEED_R).count Counters.recordTruncated, []) :=
      if_pos (hshort.resolve_left hsession)
    rw [hrun]
    exact ⟨rfl, rfl, rfl, rfl, rfl, rfl⟩

def sessionA : SessionId := SessionId.repeated 65

def sessionB : SessionId := SessionId.repeated 66

/-- A turn that polls one frame without an index. -/
def polled (nowNs : ℕ) (frame : List UInt8) : Turn := ⟨[⟨frame, 0, [], none⟩], nowNs, []⟩

/-- A first session is split into a second one. -/
def splitTurns : List Turn :=
  [polled 10 (makeFrame sessionA 1 1), polled 20 (makeFrame sessionB 1 1)]

/-- An answer to the first session, received after the split. -/
def lateTurn : Turn := ⟨[], 30, [makeFrame sessionA 2 1]⟩

/-- The loop runs and takes the answer in, which is of the session before and turns the
sequencer back to it. -/
theorem lateTurn_facts :
    let e := (runEngine sessionA true splitTurns).1
    e.Runs lateTurn ∧ e.received lateTurn = [makeFrame sessionA 2 1] ∧
      packetSession (makeFrame sessionA 2 1) ≠ some e.seq.session ∧
      ¬(makeFrame sessionA 2 1).length < HEADER_LEN ∧
      (e.seq.ingest (makeFrame sessionA 2 1) FEED_R 30).1.session ≠ e.seq.session := by
  decide +kernel

theorem lateTurn_receives :
    (runEngine sessionA true splitTurns).1.Receives lateTurn
      (runEngine sessionA true splitTurns).1.seq (makeFrame sessionA 2 1) := by
  obtain ⟨hruns, hreceived, -⟩ := lateTurn_facts
  exact ⟨hruns, [], [], hreceived, rfl⟩

theorem foreign_answer_intrudes_late :
    ¬(packetSession (makeFrame sessionA 2 1) ≠
        some (runEngine sessionA true splitTurns).1.seq.session →
      Undisturbed (runEngine sessionA true splitTurns).1.seq
        ((runEngine sessionA true splitTurns).1.seq.ingest (makeFrame sessionA 2 1) FEED_R 30)) :=
  fun h => absurd ((foreign_answer_intrudes sessionA true splitTurns lateTurn _ _
    lateTurn_receives).mp h) (not_or.mpr ⟨lateTurn_facts.2.2.1, lateTurn_facts.2.2.2.1⟩)

/-- The late answer flips the sequencer back to the old session. -/
theorem late_answer_hijacks :
    ¬(∀ turns t s packet, (runEngine sessionA true turns).1.Receives t s packet →
      packetSession packet ≠ some s.session →
        Undisturbed s (s.ingest packet FEED_R t.nowNs)) := by
  intro h
  obtain ⟨-, -, hforeign, -, hflip⟩ := lateTurn_facts
  have hquiet := h splitTurns lateTurn _ _ lateTurn_receives hforeign
  exact hflip hquiet.session

/-! ## Requests -/

namespace Loop

/-- The sequencer for which the turn evaluates the recovery intent. -/
def asking (e : Loop) (t : Turn) : Sequencer := (e.ingestTurn t).1

/-- The turn sends a request for the intent. -/
def Sends (e : Loop) (t : Turn) (intent : RecoveryIntent) : Prop :=
  e.Runs t ∧ e.recoveryClient ∧ ((e.asking t).checkRecoveryIntent t.nowNs).2 = some intent ∧
    (e.lastPendingTo = some intent.toExcl → e.retryCount + 1 < 4)

/-- Every request of the turn decodes to the session, the watermark and the length of the
range the sequencer asks for. -/
def RequestsMatch (e : Loop) (t : Turn) : Prop :=
  ∀ bytes, .request bytes ∈ (e.turn t).2 → ∃ intent request,
    ((e.asking t).checkRecoveryIntent t.nowNs).2 = some intent ∧
      decodeRequest bytes = some request ∧ request.session = (e.asking t).session ∧
      request.fromSeq = (e.asking t).w ∧ request.fromSeq + request.count = intent.toExcl

/-- If the turn sends a request, the sequencer is still in the session given at start-up and
the range end fits. -/
def RequestsReady (e : Loop) (t : Turn) : Prop :=
  (∃ intent, e.Sends t intent) → e.session = (e.asking t).session ∧
    ∀ stop ∈ (e.asking t).rangeEnd t.nowNs, stop.Fits (e.asking t).w

variable {e : Loop} {t : Turn}

theorem mem_sendRequest {bytes : List UInt8} {intent : RecoveryIntent} :
    .request bytes ∈ (e.sendRequest intent).2 ↔ e.recoveryClient ∧
      bytes = encodeRequest e.session intent.fromSeq
        ((intent.toExcl - intent.fromSeq) % 2 ^ 16) := by
  unfold sendRequest
  cases e.recoveryClient <;> simp

/-- The requests of a turn are those of its intent. -/
theorem mem_turn_request {bytes : List UInt8} :
    .request bytes ∈ (e.turn t).2 ↔ ∃ intent, e.Sends t intent ∧
      bytes = encodeRequest e.session intent.fromSeq
        ((intent.toExcl - intent.fromSeq) % 2 ^ 16) := by
  unfold turn
  split
  · rename_i hruns
    have hsunk : ∀ calls : List SinkCall, .request bytes ∉ calls.map Effect.sink := by simp
    dsimp only
    rw [List.mem_append, or_iff_right (hsunk _)]
    unfold evaluateIntent
    dsimp only
    simp only [Sends, asking, and_iff_right hruns]
    cases ((e.ingestTurn t).1.checkRecoveryIntent t.nowNs).2 with
    | none => simp
    | some intent =>
        dsimp only
        split_ifs with hnew hretry
        · rw [mem_sendRequest]
          simp [hnew]
        · simp only [hsunk, false_iff]
          rintro ⟨intent', ⟨-, hsome, hfew⟩, -⟩
          cases hsome
          have := hfew (not_not.mp hnew)
          omega
        · rw [mem_sendRequest]
          simp [Nat.not_le.mp hretry]
  · rename_i hruns
    simp [Sends, hruns]

/-- What holds of the sequencer throughout. -/
structure Sane (s : Sequencer) : Prop where
  template : s.Template
  w_lt : s.w < 2 ^ 64

theorem Sane.ingest {s : Sequencer} (h : Sane s) (packet : List UInt8) (feed : FeedId)
    (nowNs : ℕ) : Sane (s.ingest packet feed nowNs).1 where
  template := (s.ingest_standing packet feed nowNs).template h.template
  w_lt := Sequencer.step_w_lt h.w_lt (.frame packet feed nowNs)

theorem Sane.asking (h : Sane e.seq) (ht : t.Indexed) : Sane (e.asking t) := by
  have hrecovery : Sane (ingestRecovery t.nowNs e.seq (e.received t)).1 :=
    Machine.run_invariant h (fun s packet hs _ => hs.ingest packet FEED_R t.nowNs) _
      (Machine.along_of_forall (fun _ _ h => h) _ _ fun _ _ => trivial)
  refine Machine.run_invariant hrecovery (fun s f hs hf => ?_) _
    (Machine.along_of_forall (fun _ _ hf => hf) _ _ ht)
  rw [(Sequencer.ingestAuto_expands hs.template hf.1 hf.2 false f.feed t.nowNs).state]
  exact hs.ingest f.bytes f.feed t.nowNs

theorem Sane.of_core {s s' : Sequencer} (h : Sane s) (hcore : s'.core = s.core)
    (hid : s'.identity = s.identity) : Sane s' where
  template := h.template.congr hid
  w_lt := (Sequencer.w_of_core hcore).trans_lt h.w_lt

theorem evaluateIntent_sane (h : Sane e.seq) (nowNs : ℕ) : Sane (e.evaluateIntent nowNs).1.seq := by
  have hasked : Sane (e.seq.checkRecoveryIntent nowNs).1 :=
    h.of_core (e.seq.checkRecoveryIntent_core nowNs) (e.seq.checkRecoveryIntent_identity nowNs)
  unfold evaluateIntent
  dsimp only
  split
  · exact hasked
  · split_ifs
    · exact hasked
    · exact ⟨hasked.template.congr (Sequencer.sealDead_identity _ _),
        (Sequencer.sealDead_w _ _).trans_lt hasked.w_lt⟩
    · exact hasked

theorem Sane.turn (h : Sane e.seq) (ht : t.Indexed) : Sane (e.turn t).1.seq := by
  unfold Loop.turn
  split
  · exact evaluateIntent_sane (Sane.asking h ht) t.nowNs
  · exact h

/-- The requests of a turn match exactly when the turn is ready for them. -/
theorem requestsMatch_iff (h : Sane (e.asking t)) : e.RequestsMatch t ↔ e.RequestsReady t := by
  have hanswer := (e.asking t).checkRecoveryIntent_answer t.nowNs
  have hstop : ∀ {intent}, e.Sends t intent → ∃ stop,
      (e.asking t).rangeEnd t.nowNs = some stop ∧
        intent = ⟨(e.asking t).w, stop.toExcl (e.asking t).w⟩ := by
    intro intent hsends
    rw [hsends.2.2.1] at hanswer
    obtain ⟨stop, hstop, heq⟩ := Option.map_eq_some_iff.mp hanswer.symm
    exact ⟨stop, hstop, heq.symm⟩
  have hdecode : ∀ e' : ℕ, decodeRequest (encodeRequest e.session (e.asking t).w (e' % 2 ^ 16)) =
      some ⟨e.session, (e.asking t).w, e' % 2 ^ 16⟩ := fun e' =>
    decodeRequest_encodeRequest e.session h.w_lt (Nat.mod_lt _ (by decide))
  constructor
  · rintro hmatch ⟨intent, hsends⟩
    obtain ⟨stop, hstop, rfl⟩ := hstop hsends
    obtain ⟨intent', request, hsome, hreq, hsession, hfrom, hcount⟩ :=
      hmatch _ (mem_turn_request.mpr ⟨_, hsends, rfl⟩)
    rw [hsends.2.2.1] at hsome
    rw [hdecode] at hreq
    cases hsome
    cases hreq
    refine ⟨hsession, fun stop' hstop' => ?_⟩
    rw [hstop] at hstop'
    cases hstop'
    exact (stop.fits_iff h.w_lt).mpr hcount
  · intro hready bytes hbytes
    obtain ⟨intent, hsends, rfl⟩ := mem_turn_request.mp hbytes
    obtain ⟨hsession, hfits⟩ := hready ⟨intent, hsends⟩
    obtain ⟨stop, hstop, rfl⟩ := hstop hsends
    exact ⟨_, _, hsends.2.2.1, hdecode _, hsession, rfl, (stop.fits_iff h.w_lt).mp (hfits stop hstop)⟩

end Loop

/-- In a run over indexed turns every request matches the sequencer exactly when every turn
that sends one is ready. -/
theorem requests_match_iff (session : SessionId) (recoveryClient : Bool) (turns : List Turn)
    (ht : ∀ t ∈ turns, t.Indexed) :
    Machine.Along Loop.turn Loop.RequestsMatch (.start session recoveryClient) turns ↔
      Machine.Along Loop.turn Loop.RequestsReady (.start session recoveryClient) turns := by
  refine Machine.along_iff_of_invariant (P := fun e => Loop.Sane e.seq)
    (fun e t h (ht : t.Indexed) _ => h.turn ht) (fun e t h (ht : t.Indexed) => ?_) ?_ turns ht
  · exact Loop.requestsMatch_iff (h.asking ht)
  · exact ⟨Sequencer.new_template, Nat.two_pow_pos 64⟩

theorem polled_indexed {turns : List (ℕ × List UInt8)} :
    ∀ t ∈ turns.map fun p => polled p.1 p.2, t.Indexed := by
  intro t ht f hf
  obtain ⟨p, -, rfl⟩ := List.mem_map.mp ht
  cases List.mem_singleton.mp hf
  exact ⟨.inl rfl, nofun⟩

/-- A gap in a session, noticed by a heartbeat once the trigger time has passed. -/
def gapTurns (session : SessionId) : List Turn :=
  [(10, makeFrame session 1 1), (20, makeFrame session 5 1),
    (300020, makeHbFrame session 6)].map fun p => polled p.1 p.2

theorem requests_match_iff_gap :
    Machine.Along Loop.turn Loop.RequestsMatch (.start sessionA true) (gapTurns sessionA) :=
  (requests_match_iff sessionA true (gapTurns sessionA) polled_indexed).mpr
    ⟨fun _ => by decide +kernel, fun _ => by decide +kernel, fun _ => by decide +kernel, trivial⟩

/-- The gap is in one session, the request for it goes to another. -/
theorem request_for_other_session :
    ¬(∀ turns, (∀ t ∈ turns, Turn.Indexed t) →
      Machine.Along Loop.turn Loop.RequestsMatch (.start sessionA true) turns) := by
  intro h
  obtain ⟨-, -, hmatch, -⟩ := h (gapTurns sessionB) polled_indexed
  obtain ⟨-, request, -, hreq, hsession, -⟩ :=
    hmatch (encodeRequest sessionA 2 3) (by decide +kernel)
  have hdecoded : decodeRequest (encodeRequest sessionA 2 3) = some ⟨sessionA, 2, 3⟩ :=
    decodeRequest_encodeRequest sessionA (by decide) (by decide)
  rw [hdecoded] at hreq
  cases hreq
  exact absurd hsession (by decide +kernel)

end HftProj.Engine
