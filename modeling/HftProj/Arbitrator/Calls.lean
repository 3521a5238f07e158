import HftProj.Arbitrator.Ladder
import HftProj.Protocol.Encode
import Mathlib.Tactic.IntervalCases

/-!
# Calls

Every entry point of the sequencer as one call, and runs that mix them. Each ingest call
that keeps its publisher's contract stands for the frames it carries, ingested one by one
on the classic path, so a run of calls is a run of frames.
-/

namespace HftProj.Arbitrator

open HftProj.Lib HftProj.Protocol HftProj.Protocol.Moldudp64 HftProj.Protocol.Packet

/-- One call made to a sequencer. What the sink answers to `wants_spans` and
`wants_packed_spans` is an argument of the calls that ask it. -/
inductive Call where
  | ingest (frame : List UInt8) (feed : FeedId) (nowNs : ℕ)
  | ingestIndexed (wantsSpans : Bool) (frame : List UInt8) (feed : FeedId) (nowNs : ℕ)
      (blocks : List Triple) (memo : Option FrameMemo)
  | ingestAuto (wantsSpans : Bool) (frame : List UInt8) (feed : FeedId) (nowNs : ℕ)
      (blocks : List Triple) (memo : Option FrameMemo)
  | ingestBatch (wantsSpans : Bool) (entries : List FrameEntry) (nowNs : ℕ)
  | ingestEntries (wantsSpans : Bool) (entries : List FrameEntry) (nowNs : ℕ)
  | ingestEntriesLadder (wantsSpans wantsPackedSpans : Bool) (entries : List FrameEntry)
      (nowNs : ℕ) (ladder : Option SoaLadder8)
  | recoveryIntent (nowNs : ℕ)
  | sealDead (reason : DeadReason)
  | reanchor
  | replayApply (w : ℕ) (counters : Counters) (progressVt : ℕ)

/-- What a call shows outside. -/
inductive Reply where
  | sink (call : BatchCall)
  | intent (answer : Option RecoveryIntent)
  deriving DecidableEq

/-- A reply as outputs of the classic path. -/
def Reply.expand (mem : ℕ → UInt8) : Reply → List Output
  | .sink call => (call.expand mem).map .sink
  | .intent answer => [.intent answer]

namespace Sequencer

/-- Everything as in a new sequencer, but for the mutation mode and the bytes of the arena. -/
def reanchor (s : Sequencer) : Sequencer :=
  { new with
    mutation := s.mutation
    window := { s.window with lens := fun _ => 0, stagedCount := 0, maxStaged := 0 } }

/-- Take over the watermark, the counters and the progress time of a recorded pass. -/
def replayApply (s : Sequencer) (w : ℕ) (counters : Counters) (progressVt : ℕ) : Sequencer :=
  { s with w := w, counters := counters, progressVt := progressVt }

/-- The answer to a call. -/
@[grind =]
def call (s : Sequencer) (c : Call) : Traced Sequencer Reply :=
  let sunk (r : Emitting) : Traced Sequencer Reply := (r.1, r.2.map fun call => .sink (.call call))
  let batch (r : Traced Sequencer BatchCall) : Traced Sequencer Reply := (r.1, r.2.map .sink)
  match c with
  | .ingest frame feed nowNs => sunk (s.ingest frame feed nowNs)
  | .ingestIndexed wantsSpans frame feed nowNs blocks memo =>
      sunk (s.ingestIndexed wantsSpans frame feed nowNs blocks memo)
  | .ingestAuto wantsSpans frame feed nowNs blocks memo =>
      sunk (s.ingestAuto wantsSpans frame feed nowNs blocks memo)
  | .ingestBatch wantsSpans entries nowNs => batch (s.ingestBatch wantsSpans entries nowNs)
  | .ingestEntries wantsSpans entries nowNs => batch (s.ingestEntries wantsSpans entries nowNs)
  | .ingestEntriesLadder wantsSpans wantsPackedSpans entries nowNs ladder =>
      batch (s.ingestEntriesLadder wantsSpans wantsPackedSpans entries nowNs ladder)
  | .recoveryIntent nowNs =>
      ((s.checkRecoveryIntent nowNs).1, [.intent (s.checkRecoveryIntent nowNs).2])
  | .sealDead reason => sunk (s.sealDead reason)
  | .reanchor => (s.reanchor, [])
  | .replayApply w counters progressVt => (s.replayApply w counters progressVt, [])

/-- A run of calls made to a fresh sequencer. -/
def runCalls (calls : List Call) : Traced Sequencer Reply := Machine.run call new calls

/-! ## What no call changes -/

theorem ingestIndexed_standing (s : Sequencer) (wantsSpans : Bool) (frame : List UInt8)
    (feed : FeedId) (nowNs : ℕ) (blocks : List Triple) (memo : Option FrameMemo) :
    Standing s (s.ingestIndexed wantsSpans frame feed nowNs blocks memo).1 := by
  have hcount : Standing s (s.countPacket frame feed) := .of_identity rfl
  refine hcount.trans ?_
  unfold ingestIndexed
  generalize s.countPacket frame feed = t
  dsimp only
  split
  · exact .of_identity rfl
  split
  · exact .of_identity rfl
  rw [Traced.andThen_fst]
  refine Standing.trans ?_ (.of_identity (indexedKind_identity _ _ _ _ _ _ _ _))
  split
  · exact .of_identity rfl
  · exact dispatchSession_standing t _

theorem scanLoop_standing (scan : Sequencer → List FrameEntry → ScanResult) (wantsSpans : Bool)
    (nowNs fuel : ℕ) (s : Sequencer) (entries : List FrameEntry) :
    Standing s (scanLoop scan wantsSpans nowNs fuel s entries).1 := by
  induction fuel generalizing s entries with
  | zero => exact .of_identity rfl
  | succ fuel ih =>
      have hcold : ∀ (t : Sequencer) (e : FrameEntry) (rest : List FrameEntry),
          Standing t (Traced.andThen ((t.coldApply wantsSpans nowNs e).1,
            (t.coldApply wantsSpans nowNs e).2.map BatchCall.call)
            fun t => scanLoop scan wantsSpans nowNs fuel t rest).1 := fun t e rest =>
        (ingestAuto_standing t _ _ _ _ _ _).trans (ih _ rest)
      unfold scanLoop
      dsimp only
      split
      · have habsorb : Standing s (s.absorb (scan s entries) nowNs) := .of_identity rfl
        cases (scan s entries).cold with
        | none => exact habsorb
        | some c => exact habsorb.trans (hcold _ c.1 c.2)
      · cases entries with
        | nil => exact .of_identity rfl
        | cons e rest => exact hcold s e rest

/-- No call breaks the session template or sets a mutation. -/
theorem call_standing (s : Sequencer) (c : Call) : Standing s (s.call c).1 := by
  cases c with
  | ingest frame feed nowNs => exact s.ingest_standing frame feed nowNs
  | ingestIndexed wantsSpans frame feed nowNs blocks memo =>
      exact s.ingestIndexed_standing wantsSpans frame feed nowNs blocks memo
  | ingestAuto wantsSpans frame feed nowNs blocks memo =>
      exact s.ingestAuto_standing wantsSpans frame feed nowNs blocks memo
  | ingestBatch wantsSpans entries nowNs => exact scanLoop_standing _ _ _ _ s entries
  | ingestEntries wantsSpans entries nowNs => exact scanLoop_standing _ _ _ _ s entries
  | ingestEntriesLadder wantsSpans wantsPackedSpans entries nowNs ladder =>
      exact scanLoop_standing _ _ _ _ s entries
  | recoveryIntent nowNs => exact .of_identity (s.checkRecoveryIntent_identity nowNs)
  | sealDead reason => exact .of_identity (s.sealDead_identity reason)
  | reanchor => exact ⟨fun _ h => absurd h Bool.false_ne_true, rfl⟩
  | replayApply w counters progressVt => exact .of_identity rfl

/-- Every reachable state has a sound template and no mutation. -/
theorem runCalls_standing (calls : List Call) :
    (runCalls calls).1.Template ∧ (runCalls calls).1.mutation = .none := by
  have hrun : Standing new (runCalls calls).1 :=
    Machine.run_induction (fun _ r => Standing new r.1) (.of_identity rfl)
      (fun _ r c h => h.trans (r.1.call_standing c)) calls
  exact ⟨hrun.template new_template, hrun.mutation⟩

end Sequencer

/-! ## Calls as frames -/

namespace Call

/-- What an ingest call relies on. Re-anchoring and replay are not ingest. -/
def Contract (mem : ℕ → UInt8) : Call → Prop
  | .ingest _ _ _ => True
  | .ingestIndexed _ frame _ _ blocks memo =>
      (∃ hdr, IndexOf frame hdr blocks) ∧ Memoized frame blocks memo
  | .ingestAuto _ frame _ _ blocks memo => Indexed frame blocks ∧ Memoized frame blocks memo
  | .ingestBatch _ entries _ => ∀ e ∈ entries, e.Published
  | .ingestEntries _ entries _ => ∀ e ∈ entries, e.Published
  | .ingestEntriesLadder wantsSpans wantsPackedSpans entries _ ladder =>
      (∀ ladder8 ∈ ladder, SoaLadder8.Exact ladder8) ∧ (∀ e ∈ entries, e.Published) ∧
        (∃ bakedLo bakedHi, ∀ e ∈ entries, e.Eligible bakedLo bakedHi) ∧
        ((wantsSpans && wantsPackedSpans) = true → Packable mem entries)
  | .recoveryIntent _ => True
  | .sealDead _ => True
  | .reanchor => False
  | .replayApply _ _ _ => False

/-- The inputs of the classic path that a call stands for. -/
def inputs : Call → List Input
  | .ingest frame feed nowNs => [.frame frame feed nowNs]
  | .ingestIndexed _ frame feed nowNs _ _ => [.frame frame feed nowNs]
  | .ingestAuto _ frame feed nowNs _ _ => [.frame frame feed nowNs]
  | .ingestBatch _ entries nowNs => entries.map fun e => .frame e.bytes e.feed nowNs
  | .ingestEntries _ entries nowNs => entries.map fun e => .frame e.bytes e.feed nowNs
  | .ingestEntriesLadder _ _ entries nowNs _ => entries.map fun e => .frame e.bytes e.feed nowNs
  | .recoveryIntent nowNs => [.recoveryIntent nowNs]
  | .sealDead reason => [.sealDead reason]
  | .reanchor => []
  | .replayApply _ _ _ => []

end Call

namespace Sequencer

theorem expand_sunk (mem : ℕ → UInt8) (calls : List SinkCall) :
    (calls.map fun call => Reply.sink (.call call)).flatMap (Reply.expand mem) =
      (expand calls).map .sink := by
  rw [List.flatMap_map, expand, List.map_flatMap]
  rfl

theorem expand_batch (mem : ℕ → UInt8) (calls : List BatchCall) :
    (calls.map Reply.sink).flatMap (Reply.expand mem) = (expandBatch mem calls).map .sink := by
  rw [List.flatMap_map, expandBatch, List.map_flatMap]
  rfl

/-- Entries ingested one by one are their frames on the classic path. -/
theorem ingestEach_inputs {s : Sequencer} (ht : s.Template) (wantsSpans : Bool) (nowNs : ℕ)
    {entries : List FrameEntry} (hp : ∀ e ∈ entries, e.Published) :
    let r := Machine.run step s (entries.map fun e => .frame e.bytes e.feed nowNs)
    (ingestEach wantsSpans nowNs s entries).1 = r.1 ∧
      (expand (ingestEach wantsSpans nowNs s entries).2).map .sink = r.2 := by
  induction entries generalizing s with
  | nil => exact ⟨rfl, rfl⟩
  | cons e entries ih =>
      have he := hp e List.mem_cons_self
      have hstep : Expands (s.coldApply wantsSpans nowNs e) (s.ingest e.bytes e.feed nowNs) :=
        ingestAuto_expands ht he.indexed he.memoized wantsSpans e.feed nowNs
      have htemplate := (s.ingest_standing e.bytes e.feed nowNs).template ht
      obtain ⟨h₁, h₂⟩ := ih htemplate fun x hx => hp x (List.mem_cons_of_mem e hx)
      have hhead : ingestEach wantsSpans nowNs s (e :: entries) =
          (s.coldApply wantsSpans nowNs e).andThen
            fun t => ingestEach wantsSpans nowNs t entries := rfl
      dsimp only
      rw [hhead, Traced.andThen_fst, Traced.andThen_snd, expand_append, List.map_append, hstep.state,
        hstep.calls, h₁, h₂]
      exact ⟨rfl, rfl⟩

/-- A call that keeps its contract does what its frames do on the classic path. -/
theorem call_refines {mem : ℕ → UInt8} {s : Sequencer} (ht : s.Template) {c : Call}
    (hc : c.Contract mem) :
    (s.call c).1 = (Machine.run step s c.inputs).1 ∧
      (s.call c).2.flatMap (Reply.expand mem) = (Machine.run step s c.inputs).2 := by
  have hframe : ∀ (r : Emitting) (frame : List UInt8) (feed : FeedId) (nowNs : ℕ),
      Expands r (s.ingest frame feed nowNs) →
      r.1 = (Machine.run step s [.frame frame feed nowNs]).1 ∧
        (r.2.map fun call => Reply.sink (.call call)).flatMap (Reply.expand mem) =
          (Machine.run step s [.frame frame feed nowNs]).2 := by
    intro r frame feed nowNs h
    rw [expand_sunk, h.state, h.calls]
    exact ⟨rfl, (List.append_nil _).symm⟩
  have hbatch : ∀ (r : Traced Sequencer BatchCall) (wantsSpans : Bool)
      (entries : List FrameEntry) (nowNs : ℕ), (∀ e ∈ entries, e.Published) →
      r.1 = (ingestEach wantsSpans nowNs s entries).1 ∧
        expandBatch mem r.2 = expand (ingestEach wantsSpans nowNs s entries).2 →
      let r' := Machine.run step s (entries.map fun e => .frame e.bytes e.feed nowNs)
      r.1 = r'.1 ∧ (r.2.map Reply.sink).flatMap (Reply.expand mem) = r'.2 := by
    intro r wantsSpans entries nowNs hp ⟨hstate, hcalls⟩
    obtain ⟨h₁, h₂⟩ := ingestEach_inputs ht wantsSpans nowNs hp
    exact ⟨hstate.trans h₁, by rw [expand_batch, hcalls, h₂]⟩
  cases c with
  | ingest frame feed nowNs => exact hframe _ frame feed nowNs (s.ingest_expands frame feed nowNs)
  | ingestIndexed wantsSpans frame feed nowNs blocks memo =>
      obtain ⟨⟨hdr, hi⟩, hm⟩ := hc
      exact hframe _ frame feed nowNs (ingestIndexed_expands ht hi hm wantsSpans feed nowNs)
  | ingestAuto wantsSpans frame feed nowNs blocks memo =>
      exact hframe _ frame feed nowNs (ingestAuto_expands ht hc.1 hc.2 wantsSpans feed nowNs)
  | ingestBatch wantsSpans entries nowNs =>
      exact hbatch _ wantsSpans entries nowNs hc (ingestBatch_eq mem ht wantsSpans hc nowNs)
  | ingestEntries wantsSpans entries nowNs =>
      exact hbatch _ wantsSpans entries nowNs hc (ingestEntries_eq mem ht wantsSpans hc nowNs)
  | ingestEntriesLadder wantsSpans wantsPackedSpans entries nowNs ladder =>
      obtain ⟨hk, hp, ⟨bakedLo, bakedHi, helig⟩, hpack⟩ := hc
      exact hbatch _ wantsSpans entries nowNs hp
        (ingestEntriesLadder_eq wantsSpans wantsPackedSpans hk ht hp helig hpack nowNs)
  | recoveryIntent nowNs => exact ⟨rfl, rfl⟩
  | sealDead reason =>
      have hcalls : expand (s.sealDead reason).2 = (s.sealDead reason).2 := by
        unfold sealDead
        split <;> rfl
      refine ⟨rfl, ?_⟩
      change ((s.sealDead reason).2.map fun call => Reply.sink (.call call)).flatMap
        (Reply.expand mem) = (s.sealDead reason).2.map .sink ++ []
      rw [expand_sunk, hcalls, List.append_nil]
  | reanchor => exact hc.elim
  | replayApply w counters progressVt => exact hc.elim

/-- A run of calls that keep their contracts is a run of frames on the classic path. -/
theorem runCalls_refines {mem : ℕ → UInt8} {calls : List Call} (hc : ∀ c ∈ calls, c.Contract mem) :
    (runCalls calls).1 = (run (calls.flatMap Call.inputs)).1 ∧
      (runCalls calls).2.flatMap (Reply.expand mem) = (run (calls.flatMap Call.inputs)).2 := by
  have hrun : ∀ s : Sequencer, s.Template →
      (Machine.run call s calls).1 = (Machine.run step s (calls.flatMap Call.inputs)).1 ∧
        (Machine.run call s calls).2.flatMap (Reply.expand mem) =
          (Machine.run step s (calls.flatMap Call.inputs)).2 := by
    induction calls with
    | nil => exact fun _ _ => ⟨rfl, rfl⟩
    | cons c calls ih =>
        intro s ht
        obtain ⟨h₁, h₂⟩ := call_refines ht (hc c List.mem_cons_self)
        obtain ⟨h₃, h₄⟩ := ih (fun x hx => hc x (List.mem_cons_of_mem c hx)) (s.call c).1
          ((s.call_standing c).template ht)
        rw [List.flatMap_cons, Machine.run_append, Machine.run_cons, Traced.andThen_fst,
          Traced.andThen_snd, Traced.andThen_fst, Traced.andThen_snd, List.flatMap_append, h₂, h₃,
          h₄, h₁]
        exact ⟨rfl, rfl⟩
  exact hrun new new_template

end Sequencer

/-! ## A publisher -/

/-- The triples of a data frame whose span fits and whose blocks fill it. -/
def indexFrame (frame : List UInt8) : List Triple :=
  match parseHeader frame with
  | .error _ => []
  | .ok hdr =>
      if hdr.span ≠ none ∧ (splitBlocks hdr.count (frame.drop HEADER_LEN)).2 = none then
        walkTriples frame hdr.count HEADER_LEN hdr.seq
      else []

/-- The entry of a frame at an address, for the session baked into the publisher. -/
def FrameEntry.publish (bakedLo bakedHi : ℕ) (bytes : List UInt8) (addr : ℕ) (feed : FeedId) :
    FrameEntry :=
  let blocks := indexFrame bytes
  let valid := (validPrefix (cut bytes blocks)).length
  let sessLo := fromLeBytes (slice bytes 0 8)
  let sessHi := fromLeBytes (slice bytes 2 10)
  let eligOk := blocks ≠ [] ∧ valid = blocks.length ∧ sessLo = bakedLo ∧ sessHi = bakedHi
  { bytes := bytes
    addr := addr
    feed := feed
    blocks := blocks
    memo := if blocks ≠ [] then some ⟨valid⟩ else none
    firstSeq := (blocks.head?.map Prod.fst).getD 0
    sessLo := sessLo
    sessHi := sessHi
    elig := (feed &&& 3) ||| if eligOk then FRAME_ELIG_OK else 0 }

theorem indexFrame_indexed (frame : List UInt8) : Indexed frame (indexFrame frame) := by
  unfold indexFrame
  cases hhdr : parseHeader frame with
  | error e => exact .inl rfl
  | ok hdr =>
      dsimp only
      split
      · rename_i h
        exact .inr ⟨hdr, hhdr, h.1, h.2, rfl⟩
      · exact .inl rfl

/-- The publisher keeps its contract on every frame. -/
theorem FrameEntry.publish_published (bakedLo bakedHi : ℕ) (bytes : List UInt8) (addr : ℕ)
    (feed : FeedId) : (publish bakedLo bakedHi bytes addr feed).Published where
  indexed := indexFrame_indexed bytes
  memoized := by
    intro m hm
    simp only [publish] at hm
    split at hm
    · cases hm
      rfl
    · cases hm
  first := by
    intro b hb
    simp only [publish] at hb ⊢
    rw [hb]
    rfl
  session := fun _ => ⟨rfl, rfl⟩

theorem eligByte_ok (feed : FeedId) :
    ((feed &&& 3) ||| FRAME_ELIG_OK) &&& FRAME_ELIG_OK ≠ 0 ∧
      ((feed &&& 3) ||| 0) &&& FRAME_ELIG_OK = 0 := by
  constructor
  · have hset : ((feed &&& 3) ||| FRAME_ELIG_OK) &&& FRAME_ELIG_OK = FRAME_ELIG_OK := by
      apply UInt8.toBitVec_inj.mp
      ext i hi
      interval_cases i <;> simp [FRAME_ELIG_OK]
    rw [hset]
    decide
  · have hdisjoint : (3 : UInt8) &&& FRAME_ELIG_OK = 0 := by decide
    rw [UInt8.or_zero, UInt8.and_assoc, hdisjoint, UInt8.and_zero]

theorem eligByte_feed (feed : FeedId) :
    eligFeed ((feed &&& 3) ||| FRAME_ELIG_OK) = feed &&& 3 ∧
      eligFeed ((feed &&& 3) ||| 0) = feed &&& 3 := by
  unfold eligFeed
  constructor
  · apply UInt8.toBitVec_inj.mp
    ext i hi
    interval_cases i <;> simp [FRAME_ELIG_OK]
  · rw [UInt8.or_zero, UInt8.and_assoc]
    rfl

theorem FrameEntry.publish_eligible (bakedLo bakedHi : ℕ) (bytes : List UInt8) (addr : ℕ)
    (feed : FeedId) : (publish bakedLo bakedHi bytes addr feed).Eligible bakedLo bakedHi where
  ok := by
    obtain ⟨hset, hclear⟩ := eligByte_ok feed
    simp only [publish]
    split
    · rename_i h
      obtain ⟨h₁, h₂, h₃, h₄⟩ := h
      simp [h₁, h₂, h₃, h₄, hset]
    · rename_i h
      simp only [hclear, ne_eq, not_true, false_iff]
      rintro ⟨h₁, h₂, h₃, h₄⟩
      rw [if_pos h₁] at h₂
      exact h ⟨h₁, by simpa using h₂, h₃, h₄⟩
  feed := by
    obtain ⟨hset, hclear⟩ := eligByte_feed feed
    simp only [publish]
    split
    · exact hset
    · exact hclear

namespace Sequencer

/-! ## The paths agree -/

/-- Indexed ingest is classic ingest, from every reachable state. -/
theorem indexed_equals_classic (calls : List Call) {frame : List UInt8} {blocks : List Triple}
    {memo : Option FrameMemo} (hi : Indexed frame blocks) (hm : Memoized frame blocks memo)
    (wantsSpans : Bool) (feed : FeedId) (nowNs : ℕ) :
    let s := (runCalls calls).1
    let auto := s.ingestAuto wantsSpans frame feed nowNs blocks memo
    auto.1 = (s.ingest frame feed nowNs).1 ∧ expand auto.2 = (s.ingest frame feed nowNs).2 := by
  have h := ingestAuto_expands (runCalls_standing calls).1 hi hm wantsSpans feed nowNs
  exact ⟨h.state, h.calls⟩

/-- A session whose first message has been delivered. -/
def anchored : List Call := [.ingest (makeFrame (SessionId.repeated 65) 1 1) 0 10]

def baked : ℕ := fromLeBytes (List.replicate 8 65)

/-- Published frames of that session: first number, count, address and feed. -/
def tape (frames : List (ℕ × ℕ × ℕ × FeedId)) : List FrameEntry :=
  frames.map fun f => .publish baked baked
    (makeFrame (SessionId.repeated 65) f.1 f.2.1) f.2.2.1 f.2.2.2

theorem tape_published {frames : List (ℕ × ℕ × ℕ × FeedId)} {e : FrameEntry}
    (he : e ∈ tape frames) : e.Published ∧ e.Eligible baked baked := by
  obtain ⟨f, -, rfl⟩ := List.mem_map.mp he
  exact ⟨FrameEntry.publish_published _ _ _ _ _, FrameEntry.publish_eligible _ _ _ _ _⟩

theorem indexed_equals_classic_overlap :
    let s := (runCalls anchored).1
    let e := FrameEntry.publish baked baked (makeFrame ⟨List.replicate 10 65, rfl⟩ 1 3) 0 1
    expand (s.ingestAuto true e.bytes 1 20 e.blocks e.memo).2 = (s.ingest e.bytes 1 20).2 :=
  have hp := FrameEntry.publish_published baked baked
    (makeFrame ⟨List.replicate 10 65, rfl⟩ 1 3) 0 1
  (indexed_equals_classic anchored hp.indexed hp.memoized true 1 20).2

/-- Batched ingest is ingest entry by entry, from every reachable state. -/
theorem batched_equals_each (mem : ℕ → UInt8) (calls : List Call) {entries : List FrameEntry}
    (hp : ∀ e ∈ entries, e.Published) (wantsSpans : Bool) (nowNs : ℕ) :
    let s := (runCalls calls).1
    let each := ingestEach wantsSpans nowNs s entries
    let batch := s.ingestBatch wantsSpans entries nowNs
    let slice := s.ingestEntries wantsSpans entries nowNs
    (batch.1 = each.1 ∧ expandBatch mem batch.2 = expand each.2) ∧
      (slice.1 = each.1 ∧ expandBatch mem slice.2 = expand each.2) := by
  have ht := (runCalls_standing calls).1
  exact ⟨ingestBatch_eq mem ht wantsSpans hp nowNs, ingestEntries_eq mem ht wantsSpans hp nowNs⟩

theorem batched_equals_each_mixed :
    let mem : ℕ → UInt8 := fun address => address.toUInt8
    let s := (runCalls anchored).1
    let entries := tape [(2, 1, 0, 0), (2, 1, 0, 1), (5, 1, 0, 0), (3, 2, 0, 1)]
    expandBatch mem (s.ingestBatch true entries 20).2 =
      expand (ingestEach true 20 s entries).2 :=
  (batched_equals_each _ anchored (fun _ he => (tape_published he).1) true 20).1.2

/-- Four pairs of a frame and its duplicate, one behind the other in memory. -/
def pairsTape : List FrameEntry :=
  tape ((List.range 8).map fun k => (2 + k / 2, 1, 34 * k, UInt8.ofNat k))

def pairsMemory (addr : ℕ) : UInt8 :=
  (makeFrame (SessionId.repeated 65) (2 + addr / 34 / 2) 1).getD (addr % 34) 0

theorem makeFrame_single_length (session : SessionId) (seq : ℕ) :
    (makeFrame session seq 1).length = 34 := by
  simp [makeFrame, buildPacket, headerBytes, blockBytes, makeMsgS, session.2]

theorem pairs_packable : Packable pairsMemory pairsTape where
  held e he := by
    obtain ⟨f, hf, rfl⟩ := List.mem_map.mp he
    obtain ⟨k, hk, rfl⟩ := List.mem_map.mp hf
    have hlen := makeFrame_single_length (SessionId.repeated 65) (2 + k / 2)
    have hk := List.mem_range.mp hk
    constructor
    · refine List.ext_getElem (by simp [readBytes]) fun i _ hi => ?_
      have hi : i < 34 := hlen ▸ hi
      have hframe : (34 * k + i) / 34 = k := by omega
      have hbyte : (34 * k + i) % 34 = i := by omega
      simp only [readBytes, List.getElem_map, List.getElem_range, pairsMemory,
        FrameEntry.publish, hframe, hbyte]
      rw [List.getD_eq_getElem?_getD, List.getElem?_eq_getElem (hlen ▸ hi), Option.getD_some]
    · dsimp only [FrameEntry.publish]
      omega
  offsets := by
    rw [pairsTape, tape, List.pairwise_map, List.pairwise_map]
    decide
  lengths e he := by
    obtain ⟨f, hf, rfl⟩ := List.mem_map.mp he
    obtain ⟨k, -, rfl⟩ := List.mem_map.mp hf
    exact (makeFrame_single_length _ _).trans_lt (by decide)

/-- Two bodies 4 GiB apart. -/
def farTape : List FrameEntry := tape [(2, 1, 0, 0), (3, 1, 2 ^ 32, 0)]

def farMemory (addr : ℕ) : UInt8 :=
  (if addr < 2 ^ 32 then makeFrame (SessionId.repeated 65) 2 1
    else makeFrame (SessionId.repeated 65) 3 1).getD (addr % 2 ^ 32) 0

end Sequencer

end HftProj.Arbitrator
