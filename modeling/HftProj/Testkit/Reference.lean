import HftProj.Lib.Streams
import HftProj.Protocol.Packet
import Mathlib.Data.List.Perm.Subperm

/-!
# The reference arbitrator

The oracle of the test kit. It records every block under its sequence number, the
first copy wins, and evaluates each session from its anchor to the first number
that was never recorded. It parses frames by hand and holds no window.
-/

namespace HftProj.Testkit

open HftProj.Lib HftProj.Protocol HftProj.Protocol.Moldudp64 HftProj.Protocol.Packet

/-- `messages` is the source's ordered map: each key once, here in order of insertion. -/
structure RefSession where
  sessionId : SessionId
  anchor : Option ℕ
  messages : List (ℕ × List UInt8)
  eosSeen : Bool
  deriving DecidableEq

namespace RefSession

def new (sessionId : SessionId) : RefSession := ⟨sessionId, none, [], false⟩

/-- The loop body for a complete block: set the anchor once, keep the first copy. -/
def record (session : RefSession) (curSeq : ℕ) (payload : List UInt8) : RefSession :=
  let session := if session.anchor.isNone then { session with anchor := some curSeq } else session
  if (session.messages.lookup curSeq).isNone then
    { session with messages := session.messages ++ [(curSeq, payload)] }
  else session

/-- The block loop of `ingest_packet`, which gives up at the first incomplete block. -/
@[grind =]
def recordBlocks (frame : List UInt8) : ℕ → ℕ → ℕ → RefSession → RefSession
  | 0, _, _, session => session
  | n + 1, pos, curSeq, session =>
      if pos + 2 > frame.length then session
      else
        let len := fromBeBytes (slice frame pos (pos + 2))
        let pos := pos + 2
        if pos + len > frame.length then session
        else
          recordBlocks frame n (pos + len) (saturatingAdd curSeq 1)
            (session.record curSeq (slice frame pos (pos + len)))

/-- What `ingest_packet` does to the session of the frame. -/
def ingestFrame (session : RefSession) (frame : List UInt8) (seq count : ℕ) : RefSession :=
  if count = EOS_COUNT then { session with eosSeen := true }
  else if count = HEARTBEAT_COUNT then session
  else session.recordBlocks frame count HEADER_LEN seq

end RefSession

structure ReferenceArbitrator where
  sessions : List RefSession
  currentSessionIdx : Option ℕ
  deriving DecidableEq

structure Evaluation where
  finalAnchor : ℕ
  finalWm : ℕ
  totalHash : UInt64
  emitted : List (ℕ × List UInt8)
  deriving DecidableEq

namespace ReferenceArbitrator

def new : ReferenceArbitrator := ⟨[], none⟩

/-- The index of the session of a frame; a new session is pushed when the id changes. -/
def manageSession (r : ReferenceArbitrator) (sessionId : SessionId) : ReferenceArbitrator × ℕ :=
  let pushed : ReferenceArbitrator × ℕ :=
    (⟨r.sessions ++ [RefSession.new sessionId], some r.sessions.length⟩, r.sessions.length)
  match r.currentSessionIdx with
  | none => pushed
  | some idx =>
      if r.sessions[idx]?.map RefSession.sessionId = some sessionId then (r, idx) else pushed

def ingestPacket (r : ReferenceArbitrator) (frame : List UInt8) : ReferenceArbitrator :=
  match parseHeader frame with
  | .error _ => r
  | .ok hdr =>
      let managed := r.manageSession hdr.session
      { managed.1 with
        sessions := managed.1.sessions.modify managed.2
          fun session => session.ingestFrame frame hdr.seq hdr.count }

/-- Fold bytes into a running FNV-1a hash. -/
def fnvFold (hash : UInt64) (bytes : List UInt8) : UInt64 :=
  bytes.foldl (fun h b => (h ^^^ b.toUInt64) * 0x100000001b3) hash

/-- The hash of a message folds its length, low byte first, and its bytes. -/
def hashMessage (hash : UInt64) (data : List UInt8) : UInt64 :=
  fnvFold (fnvFold hash [UInt8.ofNat data.length, UInt8.ofNat (data.length / 256)]) data

/-- The emission loop; one round for each recorded message is enough to reach a gap. -/
@[grind =]
def emitLoop (messages : List (ℕ × List UInt8)) : ℕ → Evaluation → Evaluation
  | 0, e => e
  | n + 1, e =>
      match messages.lookup e.finalWm with
      | none => e
      | some data =>
          emitLoop messages n { e with
            finalWm := wrappingAdd e.finalWm 1
            totalHash := hashMessage e.totalHash data
            emitted := e.emitted ++ [(e.finalWm, data)] }

def evaluateSession (e : Evaluation) (session : RefSession) : Evaluation :=
  let anchor := session.anchor.getD 1
  emitLoop session.messages session.messages.length
    { e with finalAnchor := anchor, finalWm := anchor }

def evaluateAllSessions (r : ReferenceArbitrator) : Evaluation :=
  r.sessions.foldl evaluateSession ⟨1, 1, 0xcbf29ce484222325, []⟩

end ReferenceArbitrator

/-! ## What a session records -/

namespace RefSession

/-- Record numbered blocks in order. -/
def recordAll (session : RefSession) (seen : List (ℕ × List UInt8)) : RefSession :=
  seen.foldl (fun s m => s.record m.1 m.2) session

/-- The session after its blocks: the anchor is the first number, the messages are the
first copies, and no number is kept twice. -/
structure Recorded (session : RefSession) (seen : List (ℕ × List UInt8)) : Prop where
  anchor : session.anchor = seen.head?.map Prod.fst
  messages : ∀ q, session.messages.lookup q = seen.lookup q
  nodup : (session.messages.map Prod.fst).Nodup

theorem new_recorded (sessionId : SessionId) : (new sessionId).Recorded [] where
  anchor := rfl
  messages _ := rfl
  nodup := List.nodup_nil

theorem record_sessionId (session : RefSession) (q : ℕ) (d : List UInt8) :
    (session.record q d).sessionId = session.sessionId := by
  unfold record
  dsimp only
  split_ifs <;> rfl

theorem record_anchor (session : RefSession) (q : ℕ) (d : List UInt8) :
    (session.record q d).anchor = some (session.anchor.getD q) := by
  unfold record
  dsimp only
  cases ha : session.anchor <;> split_ifs <;> simp_all

theorem record_messages (session : RefSession) (q : ℕ) (d : List UInt8) :
    (session.record q d).messages =
      if (session.messages.lookup q).isNone then session.messages ++ [(q, d)]
      else session.messages := by
  unfold record
  dsimp only
  split_ifs <;> simp_all

theorem Recorded.record {session : RefSession} {seen : List (ℕ × List UInt8)}
    (h : session.Recorded seen) (q : ℕ) (d : List UInt8) :
    (session.record q d).Recorded (seen ++ [(q, d)]) := by
  constructor
  · rw [record_anchor, h.anchor]
    cases seen <;> rfl
  · intro p
    rw [record_messages, List.lookup_append, ← h.messages p]
    cases hq : session.messages.lookup q with
    | none =>
        rw [if_pos (by simp), List.lookup_append]
    | some x =>
        rw [if_neg (by simp), List.lookup_cons]
        by_cases hp : p = q
        · rw [hp, hq]
          rfl
        · rw [beq_false_of_ne hp]
          exact Option.or_none.symm
  · rw [record_messages]
    cases hq : session.messages.lookup q with
    | none =>
        rw [if_pos (by simp), List.map_append, List.nodup_append]
        refine ⟨h.nodup, by simp, ?_⟩
        intro a ha b hb
        rintro rfl
        obtain ⟨m, hm, rfl⟩ := List.mem_map.mp ha
        have := List.lookup_eq_none_iff.mp hq m hm
        simp_all
    | some x =>
        rw [if_neg (by simp)]
        exact h.nodup

theorem Recorded.recordAll {session : RefSession} {seen : List (ℕ × List UInt8)}
    (h : session.Recorded seen) (more : List (ℕ × List UInt8)) :
    (session.recordAll more).Recorded (seen ++ more) := by
  induction more generalizing session seen with
  | nil => simpa [RefSession.recordAll] using h
  | cons m more ih =>
      have := ih (h.record m.1 m.2)
      simpa [RefSession.recordAll] using this

theorem recordAll_sessionId (session : RefSession) (seen : List (ℕ × List UInt8)) :
    (session.recordAll seen).sessionId = session.sessionId := by
  induction seen generalizing session with
  | nil => rfl
  | cons m seen ih =>
      change ((session.record m.1 m.2).recordAll seen).sessionId = _
      rw [ih, record_sessionId]

/-- Away from the top of the range the block loop records the blocks of the grammar. -/
theorem recordBlocks_eq (frame : List UInt8) {n pos curSeq : ℕ} (session : RefSession)
    (hpos : pos ≤ frame.length) (hseq : curSeq + n < 2 ^ 64) :
    session.recordBlocks frame n pos curSeq =
      session.recordAll (number curSeq (splitBlocks n (frame.drop pos)).1) := by
  induction n generalizing pos curSeq session with
  | zero => rfl
  | succ n ih =>
      have hlen : (frame.drop pos).length = frame.length - pos := List.length_drop
      have htake : slice frame pos (pos + 2) = (frame.drop pos).take 2 := by
        simp [slice]
      unfold recordBlocks splitBlocks
      by_cases h₁ : (frame.drop pos).length < 2
      · rw [if_pos (by omega), if_pos h₁]
        rfl
      · rw [if_neg (by omega), if_neg h₁]
        by_cases h₂ : (frame.drop pos).length < 2 + fromBeBytes ((frame.drop pos).take 2)
        · rw [if_pos (by rw [htake]; omega), if_pos h₂]
          rfl
        · rw [if_neg (by rw [htake]; omega), if_neg h₂]
          have hnext : saturatingAdd curSeq 1 = curSeq + 1 := by
            unfold saturatingAdd
            omega
          have hdrop : (frame.drop pos).drop (2 + fromBeBytes ((frame.drop pos).take 2)) =
              frame.drop (pos + 2 + fromBeBytes (slice frame pos (pos + 2))) := by
            rw [List.drop_drop, htake, Nat.add_assoc]
          have hdata : slice (frame.drop pos) 2 (2 + fromBeBytes ((frame.drop pos).take 2)) =
              slice frame (pos + 2) (pos + 2 + fromBeBytes (slice frame pos (pos + 2))) := by
            rw [← htake]
            simp [slice, List.drop_drop]
          rw [hnext, ih _ (by rw [htake]; omega) (by omega), hdrop, hdata]
          rfl

/-- On the frame of a packet that is not an end of session, a session records its blocks. -/
theorem ingestFrame_eq {frame : List UInt8} {hdr : Header} (session : RefSession)
    (hhdr : parseHeader frame = .ok hdr) (hseq : hdr.seq + hdr.count < 2 ^ 64)
    (hne : hdr.count ≠ EOS_COUNT) :
    session.ingestFrame frame hdr.seq hdr.count = session.recordAll (headerBlocks frame hdr) := by
  rw [headerBlocks_eq (by omega), ingestFrame, if_neg hne]
  by_cases hc : hdr.count = HEARTBEAT_COUNT
  · rw [if_pos hc, hc]
    rfl
  · rw [if_neg hc]
    exact session.recordBlocks_eq frame (parseHeader_ok hhdr).1 hseq

end RefSession

/-! ## What the evaluation emits -/

namespace ReferenceArbitrator

/-- The loop emits the recorded run from its start and stops at the first gap it meets, if
its rounds suffice to meet one. -/
theorem emitLoop_run {messages : List (ℕ × List UInt8)}
    (hlim : ∀ m ∈ messages, m.1 + 1 < 2 ^ 64) (n : ℕ) (e : Evaluation) :
    ∃ k out, k ≤ n ∧ (emitLoop messages n e).finalWm = e.finalWm + k ∧
      (emitLoop messages n e).emitted = e.emitted ++ out ∧
      out.map Prod.fst = List.range' e.finalWm k ∧
      (∀ m ∈ out, messages.lookup m.1 = some m.2) ∧
      (k < n → messages.lookup (e.finalWm + k) = none) := by
  induction n generalizing e with
  | zero => exact ⟨0, [], le_rfl, rfl, by simp [emitLoop], rfl, by simp, by simp⟩
  | succ n ih =>
      unfold emitLoop
      cases hl : messages.lookup e.finalWm with
      | none => exact ⟨0, [], Nat.zero_le _, rfl, by simp, rfl, by simp, fun _ => hl⟩
      | some data =>
          have hmem : (e.finalWm, data) ∈ messages := by
            obtain ⟨l₁, l₂, hm, -⟩ := List.lookup_eq_some_iff.mp hl
            rw [hm]
            simp
          have hnext : wrappingAdd e.finalWm 1 = e.finalWm + 1 :=
            wrappingAdd_of_lt (hlim _ hmem)
          obtain ⟨k, out, hk, hwm, hem, hfst, hall, hstop⟩ := ih { e with
            finalWm := wrappingAdd e.finalWm 1
            totalHash := hashMessage e.totalHash data
            emitted := e.emitted ++ [(e.finalWm, data)] }
          simp only [hnext] at hwm hem hfst hstop
          refine ⟨k + 1, (e.finalWm, data) :: out, by omega, ?_, ?_, ?_, ?_, ?_⟩
          · simp only [hnext, hwm]
            omega
          · simp only [hnext, hem, List.append_assoc, List.singleton_append]
          · rw [List.map_cons, hfst, List.range'_succ]
          · intro m hm
            rcases List.mem_cons.mp hm with rfl | hm
            · exact hl
            · exact hall m hm
          · intro hlt
            rw [← hstop (by omega)]
            congr 1
            omega

/-- One round for each recorded message always meets a gap. -/
theorem emitLoop_isStream {session : RefSession} {m : ℕ × List UInt8}
    {seen : List (ℕ × List UInt8)} (h : session.Recorded (m :: seen))
    (hlim : ∀ i ∈ m :: seen, i.1 + 1 < 2 ^ 64) {e : Evaluation} (he : e.finalWm = m.1) :
    ∃ out, (emitLoop session.messages session.messages.length e).emitted = e.emitted ++ out ∧
      IsStream m.1 (m :: seen) out
        (emitLoop session.messages session.messages.length e).finalWm := by
  have hseen : ∀ q d, session.messages.lookup q = some d → (q, d) ∈ m :: seen := by
    intro q d hl
    rw [h.messages] at hl
    obtain ⟨l₁, l₂, hm, -⟩ := List.lookup_eq_some_iff.mp hl
    rw [hm]
    simp
  have hkeys : ∀ i ∈ session.messages, i.1 + 1 < 2 ^ 64 := by
    intro i hi
    cases hl : session.messages.lookup i.1 with
    | none => exact absurd (List.lookup_eq_none_iff.mp hl i hi) (by simp)
    | some d =>
        have := hlim _ (hseen _ _ hl)
        exact this
  obtain ⟨k, out, hk, hwm, hem, hfst, hall, hstop⟩ :=
    emitLoop_run hkeys session.messages.length e
  rw [he] at hwm hfst hstop
  refine ⟨out, hem, ?_⟩
  rw [hwm]
  refine ⟨by omega, ?_, fun i hi => hseen _ _ (hall i hi), ?_⟩
  · rw [hfst, Nat.add_sub_cancel_left]
  · -- a run as long as the map uses up all its keys
    have hnone : session.messages.lookup (m.1 + k) = none := by
      by_contra hne
      obtain ⟨d, hd⟩ := Option.ne_none_iff_exists'.mp hne
      have hkn : k = session.messages.length := by
        by_contra hlt
        exact hne (hstop (by omega))
      have hsub : List.range' m.1 (k + 1) ⊆ session.messages.map Prod.fst := by
        intro q hq
        have hl : ∃ x, session.messages.lookup q = some x := by
          rw [← List.range'_append_1, ← hfst, List.mem_append] at hq
          rcases hq with hq | hq
          · obtain ⟨i, hi, rfl⟩ := List.mem_map.mp hq
            exact ⟨i.2, hall i hi⟩
          · rw [List.mem_range'_1] at hq
            obtain rfl : q = m.1 + k := by omega
            exact ⟨d, hd⟩
        obtain ⟨x, hx⟩ := hl
        obtain ⟨l₁, l₂, hm, -⟩ := List.lookup_eq_some_iff.mp hx
        rw [hm]
        simp
      have hnodup : (List.range' m.1 (k + 1)).Nodup := List.nodup_range'
      have hlen := (hnodup.subperm hsub).length_le
      rw [List.length_range', List.length_map] at hlen
      omega
    intro x hx
    rw [h.messages] at hnone
    simpa using List.lookup_eq_none_iff.mp hnone _ hx

/-- A session without blocks emits nothing. -/
theorem evaluateSession_idle {session : RefSession} (h : session.Recorded []) (e : Evaluation) :
    (evaluateSession e session).emitted = e.emitted := by
  have hnone : ∀ n e, emitLoop session.messages n e = e := by
    intro n e
    cases n with
    | zero => rfl
    | succ n =>
        unfold emitLoop
        rw [h.messages]
        rfl
  unfold evaluateSession
  rw [hnone]

theorem evaluateSession_data {session : RefSession} {m : ℕ × List UInt8}
    {seen : List (ℕ × List UInt8)} (h : session.Recorded (m :: seen))
    (hlim : ∀ i ∈ m :: seen, i.1 + 1 < 2 ^ 64) (e : Evaluation) :
    ∃ out, (evaluateSession e session).emitted = e.emitted ++ out ∧
      IsStream m.1 (m :: seen) out (evaluateSession e session).finalWm := by
  have hanchor : session.anchor.getD 1 = m.1 := by
    rw [h.anchor]
    rfl
  unfold evaluateSession
  rw [hanchor]
  exact emitLoop_isStream h hlim rfl

/-- The sessions of `logs`, most recent one first, each with its id and its blocks. -/
def sessionsOf (logs : List (SessionId × List (ℕ × List UInt8))) : List RefSession :=
  (logs.map fun log => (RefSession.new log.1).recordAll log.2).reverse

/-- The evaluation emits the streams of what its sessions recorded. -/
theorem evaluate_streams {logs : List (SessionId × List (ℕ × List UInt8))}
    (hlim : ∀ log ∈ logs, ∀ m ∈ log.2, m.1 + 1 < 2 ^ 64) :
    ∃ stop, Streams (logs.map Prod.snd)
        ((sessionsOf logs).foldl evaluateSession ⟨1, 1, 0xcbf29ce484222325, []⟩).emitted stop ∧
      ∀ log older, logs = log :: older → log.2 ≠ [] →
        stop = some ((sessionsOf logs).foldl evaluateSession
          ⟨1, 1, 0xcbf29ce484222325, []⟩).finalWm := by
  induction logs with
  | nil => exact ⟨none, .nil, nofun⟩
  | cons log older ih =>
      obtain ⟨stop, hstreams, -⟩ := ih fun l hl => hlim l (List.mem_cons_of_mem _ hl)
      have hsplit : sessionsOf (log :: older) =
          sessionsOf older ++ [(RefSession.new log.1).recordAll log.2] := by
        simp [sessionsOf]
      have hrec : ((RefSession.new log.1).recordAll log.2).Recorded log.2 := by
        simpa using (RefSession.new_recorded log.1).recordAll log.2
      rw [hsplit, List.foldl_append, List.foldl_cons, List.foldl_nil]
      obtain ⟨id, seen⟩ := log
      cases seen with
      | nil =>
          refine ⟨stop, ?_, ?_⟩
          · rw [evaluateSession_idle hrec]
            exact .idle hstreams
          · rintro l o ⟨rfl, rfl⟩ hne
            exact absurd rfl hne
      | cons m seen =>
          obtain ⟨out, hem, hs⟩ := evaluateSession_data hrec (hlim _ List.mem_cons_self) _
          refine ⟨some _, ?_, fun _ _ _ _ => rfl⟩
          rw [hem]
          exact .data hstreams hs

end ReferenceArbitrator

end HftProj.Testkit
