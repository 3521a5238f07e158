import HftProj.Arbitrator.Alike
import HftProj.Arbitrator.Calls

/-!
# Re-anchoring

A re-anchored sequencer keeps the bytes of its arena, but no presence byte covers any of
them, so it is alike to a new one. The indexed path, the scans and the batched drivers
keep alike states alike and make the same calls, whatever index or entries they are given.
-/

namespace HftProj.Arbitrator

open HftProj.Lib HftProj.Protocol HftProj.Protocol.Moldudp64 HftProj.Protocol.Packet

/-! ## Watermarks of the scans -/

section Watermark

variable {ε : Type} (E : SpanEmit ε) (proof : LiveFeedProof) (wantsSpans : Bool)
  (sessLo sessHi : ℕ)

theorem emit_w (acc : Scan ε) (e : FrameEntry) : (acc.emit E proof wantsSpans e).w = acc.w := by
  have hemit : ∃ em calls, acc.emit E proof wantsSpans e = { acc with em := em, calls := calls } :=
    emit_eq acc proof e
  obtain ⟨em, calls, h⟩ := hemit
  rw [h]

theorem steadyStep_w {acc : Scan ε} (e : FrameEntry) (hw : acc.w < 2 ^ 64) :
    (steadyStep E proof wantsSpans sessLo sessHi e acc).2.w < 2 ^ 64 := by
  unfold steadyStep
  dsimp only
  split_ifs
  · exact hw
  · exact hw
  · exact hw
  · exact hw
  · exact hw
  · exact wrappingAdd_lt _ 1

theorem scanEntries_w {acc : Scan ε} (entries : List FrameEntry) (hw : acc.w < 2 ^ 64) :
    (scanEntries E proof wantsSpans sessLo sessHi entries acc).1.w < 2 ^ 64 := by
  induction entries generalizing acc with
  | nil => exact hw
  | cons e entries ih =>
      have hstep := steadyStep_w E proof wantsSpans sessLo sessHi e hw
      unfold scanEntries
      dsimp only
      split
      · exact hstep
      · exact ih hstep
      · exact ih hstep

theorem applyGroup_w {pairs : List (FrameEntry × FrameEntry)} {acc : Scan ε}
    (hw : acc.w < 2 ^ 64) : (applyGroup E proof wantsSpans pairs acc).w < 2 ^ 64 := by
  unfold applyGroup
  split
  · exact hw
  · exact wrappingAdd_lt _ _

theorem scanLadder_w (ladder : Option SoaLadder8) (fuel : ℕ) {acc : Scan ε}
    (entries : List FrameEntry) (hw : acc.w < 2 ^ 64) :
    (scanLadder E proof wantsSpans sessLo sessHi ladder fuel entries acc).1.w < 2 ^ 64 := by
  induction fuel generalizing acc entries with
  | zero => exact hw
  | succ fuel ih =>
      have hgroup16 : ∀ acc', (ladder.bind fun ladder8 => if 16 ≤ entries.length then
          ladderGroup16Apply E proof wantsSpans sessLo sessHi ladder8 entries acc else none) =
            some acc' → acc'.w < 2 ^ 64 := by
        intro acc' h
        obtain ⟨ladder8, -, h⟩ := Option.bind_eq_some_iff.mp h
        unfold ladderGroup16Apply at h
        dsimp only at h
        split_ifs at h
        cases h
        exact applyGroup_w E proof wantsSpans hw
      have hgroup8 : ∀ acc', (ladder.bind fun ladder8 => if 8 ≤ entries.length then
          ladderGroupApply E proof wantsSpans sessLo sessHi ladder8 entries acc else none) =
            some acc' → acc'.w < 2 ^ 64 := by
        intro acc' h
        obtain ⟨ladder8, -, h⟩ := Option.bind_eq_some_iff.mp h
        unfold ladderGroupApply at h
        dsimp only at h
        split_ifs at h
        cases h
        exact applyGroup_w E proof wantsSpans hw
      unfold scanLadder
      dsimp only
      split
      · rename_i h
        have hgroup := hgroup16 _ h
        exact ih _ hgroup
      · rename_i h
        have hgroup := hgroup8 _ h
        exact ih _ hgroup
      · exact hw
      · have hstep := fun e => steadyStep_w E proof wantsSpans sessLo sessHi e hw
        split
        · exact hstep _
        · exact ih _ (hstep _)
        · exact ih _ (hstep _)

/-- A scan leaves a suffix of its entries. -/
theorem scanEntries_suffix {acc : Scan ε} {entries : List FrameEntry} {e : FrameEntry}
    {rest : List FrameEntry}
    (h : (scanEntries E proof wantsSpans sessLo sessHi entries acc).2 = some (e, rest)) :
    e :: rest <:+ entries := by
  induction entries generalizing acc with
  | nil => cases h
  | cons x entries ih =>
      unfold scanEntries at h
      dsimp only at h
      split at h
      · cases h
        exact List.suffix_refl _
      · exact (ih h).trans (List.suffix_cons x entries)
      · exact (ih h).trans (List.suffix_cons x entries)

theorem scanLadder_suffix (ladder : Option SoaLadder8) {fuel : ℕ} {acc : Scan ε}
    {entries : List FrameEntry} {e : FrameEntry} {rest : List FrameEntry}
    (h : (scanLadder E proof wantsSpans sessLo sessHi ladder fuel entries acc).2 =
      some (e, rest)) : e :: rest <:+ entries := by
  induction fuel generalizing acc entries with
  | zero => cases h
  | succ fuel ih =>
      unfold scanLadder at h
      dsimp only at h
      split at h
      · exact (ih h).trans (List.drop_suffix 16 _)
      · exact (ih h).trans (List.drop_suffix 8 _)
      · cases h
      · split at h
        · cases h
          exact List.suffix_refl _
        · exact (ih h).trans (List.suffix_cons _ _)
        · exact (ih h).trans (List.suffix_cons _ _)

end Watermark

namespace Sequencer

/-! ## The indexed path -/

section Indexed

variable {f : ℕ → ℕ} {u v : Sequencer}

theorem SessMatch.alike (h : Alike True f u v) (frame : List UInt8) :
    u.SessMatch frame ↔ v.SessMatch frame := by
  obtain ⟨hlo, hhi, hlive⟩ := h.template trivial
  unfold SessMatch
  rw [hlo, hhi, hlive]

theorem Alike.indexedContiguous (h : Alike True id u v) (wantsSpans : Bool) (frame : List UInt8)
    (blocks : List Triple) (memo : Option FrameMemo) (first last nowNs : ℕ) :
    SameStep True id (u.indexedContiguous wantsSpans frame blocks memo first last nowNs)
      (v.indexedContiguous wantsSpans frame blocks memo first last nowNs) := by
  have hgen : u.gen = v.gen := h.gen
  unfold Sequencer.indexedContiguous
  dsimp only
  rw [h.w, hgen]
  generalize min (wrappingSub v.w first) blocks.length = skip
  generalize emitIndexed ⟨v.gen⟩ wantsSpans frame blocks memo first skip = emitted
  have hskip : Alike True id
      (if skip ≠ 0 then u.count fun c => { c with dupMsgs := c.dupMsgs + skip } else u)
      (if skip ≠ 0 then v.count fun c => { c with dupMsgs := c.dupMsgs + skip } else v) := by
    split
    · exact h.count _
    · exact h
  have hcount := hskip.count fun c => { c with msgsEmitted := c.msgsEmitted + emitted.1.2 }
  cases emitted.2 with
  | some e => exact (hcount.count _).emitting (by rw [SinkCall.mapGen_id, List.map_id])
  | none =>
      obtain ⟨hstate, hcalls⟩ := hcount.advance last nowNs
      refine ⟨hstate.retirePending, ?_⟩
      rw [SinkCall.mapGen_id, List.map_id] at hcalls ⊢
      rw [hcalls]

theorem Alike.indexedGap (h : Alike True id u v) (frame : List UInt8) (blocks : List Triple)
    (first last nowNs : ℕ) :
    SameStep True id (u.indexedGap frame blocks first last nowNs)
      (v.indexedGap frame blocks first last nowNs) := by
  apply SameStep.andThen (h.gapEvidence (fun _ => rfl) first)
  intro h
  generalize (u.gapEvidence first).1 = u at *
  generalize (v.gapEvidence first).1 = v at *
  have hclamp : ∀ t : Sequencer, t.mutation = .none →
      (if t.mutation = .offByOneClamp then wrappingAdd t.w (WINDOW_SLOTS / 2)
        else wrappingAdd t.w WINDOW_SLOTS) = wrappingAdd t.w WINDOW_SLOTS :=
    fun t ht => if_neg (by rw [ht]; decide)
  have hblock : stageBlock u.w (wrappingAdd u.w WINDOW_SLOTS) =
      stageBlock v.w (wrappingAdd v.w WINDOW_SLOTS) := by rw [h.w]
  dsimp only
  rw [hclamp u h.mutation, hclamp v h.mutation', hblock, foldBlocks_validated,
    foldBlocks_validated]
  obtain ⟨hwin, hc⟩ := stageAll_alike h.window h.counters v.w (wrappingAdd v.w WINDOW_SLOTS)
    (validPrefix (cut frame blocks))
  have hstaged := h.restage hwin hc
  dsimp only
  cases firstInvalid (cut frame blocks) with
  | some e => exact (hstaged.count _).silent
  | none =>
      obtain ⟨hstate, hcalls⟩ := (hstaged.recordReach last).settle nowNs
      exact Alike.emitting hstate.retirePending hcalls

theorem Alike.indexedFrame (h : Alike True id u v) (wantsSpans : Bool) (frame : List UInt8)
    (blocks : List Triple) (memo : Option FrameMemo) (first last nowNs : ℕ) :
    SameStep True id (u.indexedFrame wantsSpans frame blocks memo first last nowNs)
      (v.indexedFrame wantsSpans frame blocks memo first last nowNs) := by
  unfold Sequencer.indexedFrame
  rw [h.w]
  split
  · exact h.indexedContiguous wantsSpans frame blocks memo first last nowNs
  · exact h.indexedGap frame blocks first last nowNs

variable {blocks : List Triple} (hb : ∀ b ∈ blocks, b.1 < 2 ^ 64)

include hb in
theorem Alike.indexedData (h : Alike True id u v) (wantsSpans : Bool) (frame : List UInt8)
    (hdr : Header) (feed : FeedId) (nowNs : ℕ) (memo : Option FrameMemo) :
    SameStep True id (u.indexedData wantsSpans frame hdr feed nowNs blocks memo)
      (v.indexedData wantsSpans frame hdr feed nowNs blocks memo) := by
  unfold Sequencer.indexedData
  rw [h.state]
  split
  · exact (h.count _).silent
  cases hhead : blocks.head? with
  | none => exact h.silent
  | some b =>
      cases blocks.getLast? with
      | none => exact h.silent
      | some b' =>
          dsimp only
          rw [h.w]
          split
          · exact (h.anchorAt (hb b (List.mem_of_mem_head? hhead)) nowNs).indexedFrame
              wantsSpans frame blocks memo b.1 b'.1 nowNs
          · split
            · exact (h.count _).silent
            · exact h.indexedFrame wantsSpans frame blocks memo b.1 b'.1 nowNs

include hb in
theorem Alike.ingestIndexed (h : Alike True id u v) (wantsSpans : Bool) (frame : List UInt8)
    (feed : FeedId) (nowNs : ℕ) (memo : Option FrameMemo) :
    SameStep True id (u.ingestIndexed wantsSpans frame feed nowNs blocks memo)
      (v.ingestIndexed wantsSpans frame feed nowNs blocks memo) := by
  have hcount : Alike True id (u.countPacket frame feed) (v.countPacket frame feed) := h.count _
  unfold Sequencer.ingestIndexed
  dsimp only
  split
  · exact (hcount.count _).silent
  rw [hcount.state]
  split
  · exact (hcount.count _).silent
  apply SameStep.andThen
  · have hmatch := SessMatch.alike hcount frame
    by_cases hm : (v.countPacket frame feed).SessMatch frame
    · rw [if_pos (hmatch.mpr hm), if_pos hm]
      exact hcount.silent
    · rw [if_neg (hm ∘ hmatch.mp), if_neg hm]
      exact hcount.dispatchSession (fun _ => rfl) _
  · intro h
    unfold Sequencer.indexedKind
    split
    · exact h.handleHeartbeat (fun _ => rfl) _ nowNs
    · split
      · have hkeep : ∀ s : Sequencer, s.mutation = .none → (if s.mutation = .dropStagedAtEos then
            { s with window := { s.window with lens := fun _ => 0, stagedCount := 0 } } else s) = s :=
          fun s hs => if_neg (by rw [hs]; decide)
        rw [hkeep _ h.mutation, hkeep _ h.mutation']
        exact h.handleEos _
      · exact h.indexedData hb wantsSpans frame _ feed nowNs memo

include hb in
theorem Alike.ingestAuto (h : Alike True id u v) (wantsSpans : Bool) (frame : List UInt8)
    (feed : FeedId) (nowNs : ℕ) (memo : Option FrameMemo) :
    SameStep True id (u.ingestAuto wantsSpans frame feed nowNs blocks memo)
      (v.ingestAuto wantsSpans frame feed nowNs blocks memo) := by
  unfold Sequencer.ingestAuto
  split
  · exact h.ingest (fun _ => rfl) frame feed nowNs
  · exact h.ingestIndexed hb wantsSpans frame feed nowNs memo

end Indexed

/-! ## The batched drivers -/

section Batch

variable {u v : Sequencer}

theorem SameStep.same {r r' : Emitting} (h : SameStep True id r r') : r.2 = r'.2 := by
  rw [h.calls, SinkCall.mapGen_id, List.map_id]

/-- A scan that reads nothing of the state but what alike states share, and leaves a 64-bit
watermark and a suffix of its entries. -/
structure Blind (scan : Sequencer → List FrameEntry → ScanResult) : Prop where
  same : ∀ {u v : Sequencer}, Alike True id u v → scan u = scan v
  bound : ∀ (s : Sequencer) (entries : List FrameEntry), s.w < 2 ^ 64 → (scan s entries).w < 2 ^ 64
  suffix : ∀ (s : Sequencer) (entries : List FrameEntry) (e : FrameEntry)
    (rest : List FrameEntry), (scan s entries).cold = some (e, rest) → e :: rest <:+ entries

theorem steadyScan_blind (wantsSpans : Bool) : Blind (steadyScan wantsSpans) where
  same := by
    intro u v h
    obtain ⟨hlo, hhi, -⟩ := h.template trivial
    have hgen : u.gen = v.gen := h.gen
    funext entries
    unfold steadyScan
    rw [h.w, hgen, hlo, hhi, h.counters trivial]
  bound := fun s entries hw =>
    scanEntries_w recEmitter ⟨s.gen⟩ wantsSpans s.sessionLo s.sessionHi entries hw
  suffix := fun _ _ _ _ h => scanEntries_suffix _ _ _ _ _ h

theorem steadyScanLadder_blind {ε : Type} (E : SpanEmit ε) (wantsSpans : Bool)
    (ladder : Option SoaLadder8) : Blind (steadyScanLadder E wantsSpans ladder) where
  same := by
    intro u v h
    obtain ⟨hlo, hhi, -⟩ := h.template trivial
    have hgen : u.gen = v.gen := h.gen
    funext entries
    unfold steadyScanLadder
    rw [h.w, hgen, hlo, hhi, h.counters trivial]
  bound := fun s entries hw =>
    scanLadder_w E ⟨s.gen⟩ wantsSpans s.sessionLo s.sessionHi ladder _ entries hw
  suffix := fun _ _ _ _ h => scanLadder_suffix _ _ _ _ _ _ h

theorem Alike.steadyReady (h : Alike True id u v) : u.steadyReady = v.steadyReady := by
  unfold Sequencer.steadyReady
  rw [(h.template trivial).2.2, h.state, h.window.stagedCount, h.gapActive, h.pendingTo]

theorem Alike.absorb (h : Alike True id u v) {r : ScanResult} (hr : r.w < 2 ^ 64) (nowNs : ℕ) :
    Alike True id (u.absorb r nowNs) (v.absorb r nowNs) :=
  { h with
    w := rfl
    counters := fun _ => rfl
    progressVt := by
      unfold Sequencer.absorb
      rw [h.progressVt]
    wBound := hr }

/-- A driver around a blind scan keeps alike states alike and makes the same calls. -/
theorem Alike.scanLoop {scan : Sequencer → List FrameEntry → ScanResult} (hscan : Blind scan)
    (wantsSpans : Bool) (nowNs fuel : ℕ) (h : Alike True id u v) {entries : List FrameEntry}
    (hb : ∀ e ∈ entries, ∀ b ∈ e.blocks, b.1 < 2 ^ 64) :
    Alike True id (scanLoop scan wantsSpans nowNs fuel u entries).1
        (scanLoop scan wantsSpans nowNs fuel v entries).1 ∧
      (Sequencer.scanLoop scan wantsSpans nowNs fuel u entries).2 =
        (Sequencer.scanLoop scan wantsSpans nowNs fuel v entries).2 := by
  induction fuel generalizing u v entries with
  | zero => exact ⟨h, rfl⟩
  | succ fuel ih =>
      have hcold : ∀ {u v : Sequencer} (e : FrameEntry) (rest : List FrameEntry),
          Alike True id u v → (∀ b ∈ e.blocks, b.1 < 2 ^ 64) →
          (∀ e ∈ rest, ∀ b ∈ e.blocks, b.1 < 2 ^ 64) →
          let r := fun t : Sequencer => Traced.andThen ((t.coldApply wantsSpans nowNs e).1,
            (t.coldApply wantsSpans nowNs e).2.map BatchCall.call)
            fun t => Sequencer.scanLoop scan wantsSpans nowNs fuel t rest
          Alike True id (r u).1 (r v).1 ∧ (r u).2 = (r v).2 := by
        intro u v e rest h he hr
        have hstep := h.ingestAuto he wantsSpans e.bytes e.feed nowNs e.memo
        obtain ⟨h₁, h₂⟩ := ih hstep.alike hr
        refine ⟨h₁, ?_⟩
        exact congrArg₂ (· ++ ·) (congrArg (List.map BatchCall.call) hstep.same) h₂
      unfold Sequencer.scanLoop
      dsimp only
      rw [h.steadyReady, hscan.same h]
      split
      · have habsorb := h.absorb (hscan.bound v entries h.wBound) nowNs
        cases hc : (scan v entries).cold with
        | none => exact ⟨habsorb, rfl⟩
        | some c =>
            obtain ⟨e, rest⟩ := c
            have hmem := (hscan.suffix v entries e rest hc).subset
            obtain ⟨h₁, h₂⟩ := hcold e rest habsorb (hb e (hmem List.mem_cons_self))
              fun x hx => hb x (hmem (List.mem_cons_of_mem e hx))
            exact ⟨h₁, congrArg ((scan v entries).calls ++ ·) h₂⟩
      · cases entries with
        | nil => exact ⟨h, rfl⟩
        | cons e rest =>
            exact hcold e rest h (hb e List.mem_cons_self)
              fun x hx => hb x (List.mem_cons_of_mem e hx)

end Batch

end Sequencer

/-! ## Every call -/

/-- The numbers that a call hands over are 64-bit values. -/
def Call.InRange : Call → Prop
  | .ingestIndexed _ _ _ _ blocks _ => ∀ b ∈ blocks, b.1 < 2 ^ 64
  | .ingestAuto _ _ _ _ blocks _ => ∀ b ∈ blocks, b.1 < 2 ^ 64
  | .ingestBatch _ entries _ => ∀ e ∈ entries, ∀ b ∈ e.blocks, b.1 < 2 ^ 64
  | .ingestEntries _ entries _ => ∀ e ∈ entries, ∀ b ∈ e.blocks, b.1 < 2 ^ 64
  | .ingestEntriesLadder _ _ entries _ _ => ∀ e ∈ entries, ∀ b ∈ e.blocks, b.1 < 2 ^ 64
  | .replayApply w _ _ => w < 2 ^ 64
  | _ => True

namespace Sequencer

theorem reanchor_alike {s : Sequencer} (hs : s.mutation = .none) : Alike True id s.reanchor new :=
  { new_alike with
    mutation := hs
    window := {
      sound := ⟨by simp [Window.occupied, reanchor], fun _ => Nat.zero_le _⟩
      sound' := Window.new_sound
      stagedCount := rfl
      maxStaged := rfl
      cell := fun _ _ => rfl } }

/-- States alike answer every call alike. -/
theorem Alike.call {u v : Sequencer} (h : Alike True id u v) {c : Call} (hc : c.InRange) :
    Alike True id (u.call c).1 (v.call c).1 ∧ (u.call c).2 = (v.call c).2 := by
  have hsunk : ∀ r r' : Emitting, SameStep True id r r' → Alike True id r.1 r'.1 ∧
      (r.2.map fun call => Reply.sink (.call call)) =
        r'.2.map fun call => Reply.sink (.call call) := fun r r' hstep =>
    ⟨hstep.alike, by rw [hstep.same]⟩
  cases c with
  | ingest frame feed nowNs => exact hsunk _ _ (h.ingest (fun _ => rfl) frame feed nowNs)
  | ingestIndexed wantsSpans frame feed nowNs blocks memo =>
      exact hsunk _ _ (h.ingestIndexed hc wantsSpans frame feed nowNs memo)
  | ingestAuto wantsSpans frame feed nowNs blocks memo =>
      exact hsunk _ _ (h.ingestAuto hc wantsSpans frame feed nowNs memo)
  | ingestBatch wantsSpans entries nowNs =>
      obtain ⟨h₁, h₂⟩ := h.scanLoop (steadyScan_blind wantsSpans) wantsSpans nowNs _ hc
      exact ⟨h₁, congrArg (List.map Reply.sink) h₂⟩
  | ingestEntries wantsSpans entries nowNs =>
      obtain ⟨h₁, h₂⟩ := h.scanLoop (steadyScan_blind wantsSpans) wantsSpans nowNs _ hc
      exact ⟨h₁, congrArg (List.map Reply.sink) h₂⟩
  | ingestEntriesLadder wantsSpans wantsPackedSpans entries nowNs ladder =>
      change Alike True id (u.ingestEntriesLadder wantsSpans wantsPackedSpans entries nowNs ladder).1
          (v.ingestEntriesLadder wantsSpans wantsPackedSpans entries nowNs ladder).1 ∧
        (u.ingestEntriesLadder wantsSpans wantsPackedSpans entries nowNs ladder).2.map Reply.sink =
          (v.ingestEntriesLadder wantsSpans wantsPackedSpans entries nowNs ladder).2.map Reply.sink
      unfold ingestEntriesLadder
      dsimp only
      split
      · obtain ⟨h₁, h₂⟩ := h.scanLoop (steadyScanLadder_blind packedEmitter wantsSpans ladder)
          wantsSpans nowNs _ hc
        exact ⟨h₁, congrArg (List.map Reply.sink) h₂⟩
      · obtain ⟨h₁, h₂⟩ := h.scanLoop (steadyScanLadder_blind recEmitter wantsSpans ladder)
          wantsSpans nowNs _ hc
        exact ⟨h₁, congrArg (List.map Reply.sink) h₂⟩
  | recoveryIntent nowNs =>
      obtain ⟨h₁, h₂⟩ := h.checkRecoveryIntent nowNs
      exact ⟨h₁, congrArg (fun answer => [Reply.intent answer]) h₂⟩
  | sealDead reason => exact hsunk _ _ (h.sealDead reason)
  | reanchor =>
      have hu := reanchor_alike h.mutation
      have hv := reanchor_alike h.mutation'
      exact ⟨{ hu with
        mutation' := h.mutation'
        window := ⟨hu.window.sound, hv.window.sound, rfl, rfl, fun _ _ => rfl⟩ }, rfl⟩
  | replayApply w counters progressVt =>
      exact ⟨{ h with
        w := rfl
        counters := fun _ => rfl
        progressVt := rfl
        wBound := hc }, rfl⟩

theorem Alike.calls {u v : Sequencer} (h : Alike True id u v) {calls : List Call}
    (hc : ∀ c ∈ calls, c.InRange) :
    Alike True id (Machine.run Sequencer.call u calls).1 (Machine.run Sequencer.call v calls).1 ∧
      (Machine.run Sequencer.call u calls).2 = (Machine.run Sequencer.call v calls).2 := by
  induction calls generalizing u v with
  | nil => exact ⟨h, rfl⟩
  | cons c calls ih =>
      obtain ⟨h₁, h₂⟩ := h.call (hc c List.mem_cons_self)
      obtain ⟨h₃, h₄⟩ := ih h₁ fun x hx => hc x (List.mem_cons_of_mem c hx)
      exact ⟨h₃, congrArg₂ (· ++ ·) h₂ h₄⟩

/-- What the accessors show: watermark, session, state, generation, staged count, open gap,
counters, progress time and presence bytes. -/
def observe (s : Sequencer) :
    ℕ × SessionId × State × ℕ × ℕ × Bool × Counters × ℕ × List ℕ :=
  (s.w, s.session, s.state, s.gen, s.window.stagedCount, s.gapActive, s.counters, s.progressVt,
    (List.range WINDOW_SLOTS).map s.window.lens)

theorem Alike.observe {u v : Sequencer} (h : Alike True id u v) : u.observe = v.observe := by
  have hgen : u.gen = v.gen := h.gen
  have hlens : (List.range WINDOW_SLOTS).map u.window.lens =
      (List.range WINDOW_SLOTS).map v.window.lens :=
    List.map_congr_left fun i hi => h.window.lens (List.mem_range.mp hi)
  unfold Sequencer.observe
  rw [h.w, h.session, h.state, hgen, h.window.stagedCount, h.gapActive, h.counters trivial,
    h.progressVt, hlens]

/-- From every reachable state a re-anchored sequencer answers every further run of calls as
a new one does. -/
theorem reanchor_is_fresh (before : List Call) {after : List Call} (ha : ∀ c ∈ after, c.InRange) :
    let r := Machine.run call (runCalls before).1.reanchor after
    let r' := Machine.run call new after
    r.2 = r'.2 ∧ r.1.observe = r'.1.observe := by
  obtain ⟨h₁, h₂⟩ := (reanchor_alike (runCalls_standing before).2).calls ha
  exact ⟨h₂, h₁.observe⟩

/-- Four messages staged ahead of a gap leave bytes that the run behind the re-anchor,
staging into the same slots, does not see. -/
def stagedCalls : List Call :=
  [.ingest (makeFrame (SessionId.repeated 65) 1 1) 0 10,
    .ingest (makeFrame (SessionId.repeated 65) 5 4) 0 20]

theorem reanchor_is_fresh_staged :
    (Machine.run call (runCalls stagedCalls).1.reanchor (stagedCalls ++ anchored)).2 =
      (Machine.run call new (stagedCalls ++ anchored)).2 :=
  (reanchor_is_fresh stagedCalls (by simp [stagedCalls, anchored, Call.InRange])).1

end Sequencer

end HftProj.Arbitrator
