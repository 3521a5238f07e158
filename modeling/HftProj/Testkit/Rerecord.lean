import HftProj.Lib.Arena
import HftProj.Testkit.PassReplay

/-!
# Recording again after a rewrite of the master

A template that was recorded from the first batch of a pass on is replayed as long as the
version stands, and recorded anew, from the first batch, in the pass that starts with
another one. A version that changes inside a replayed pass leaves the records of the rest
of the pass at the front of the template.
-/

namespace HftProj.Testkit

open HftProj.Lib HftProj.Protocol HftProj.Protocol.Moldudp64 HftProj.Arbitrator

/-! ## Span batches are short -/

/-- A call that fits the staging array of its replay. -/
def Staged : BatchCall → Prop
  | .call _ => True
  | .spanBatch _ recs => recs.length ≤ SPAN_STAGE
  | .spanBatchPacked _ _ _ _ _ => True

instance : (c : BatchCall) → Decidable (Staged c)
  | .spanBatch _ recs => inferInstanceAs (Decidable (recs.length ≤ SPAN_STAGE))
  | .call _ | .spanBatchPacked _ _ _ _ _ => isTrue trivial

section Staging

variable {ε : Type} {E : SpanEmit ε} {proof : LiveFeedProof} {wantsSpans : Bool}
  {sessLo sessHi : ℕ}

/-- An emitter that flushes before its buffer outgrows the staging array. -/
structure Roomy (E : SpanEmit ε) (proof : LiveFeedProof) (Room : ε → Prop) : Prop where
  new : Room E.new
  push : ∀ em firstSeq count addr body blocks, Room em →
    let em' := E.push em firstSeq count addr body blocks
    (E.isFull em' = false → Room em') ∧ ∀ c ∈ (E.flush em' proof).2, Staged c
  flush : ∀ em, Room (E.flush em proof).1
  flushed : ∀ em, Room em → ∀ c ∈ (E.flush em proof).2, Staged c

theorem recEmitter_roomy : Roomy recEmitter proof fun recs => recs.length < STEADY_RECS where
  new := by decide
  push := by
    intro recs firstSeq count addr body blocks hroom
    simp only [recEmitter, STEADY_RECS] at hroom ⊢
    constructor
    · intro hfull
      simp only [List.length_append, List.length_singleton, beq_eq_false_iff_ne] at hfull ⊢
      omega
    · intro c hc
      split at hc
      · obtain rfl := List.mem_singleton.mp hc
        simp only [Staged, SPAN_STAGE, List.length_append, List.length_singleton]
        omega
      · cases hc
  flush := by
    intro recs
    simp only [recEmitter, STEADY_RECS]
    split
    · simp
    · rename_i h
      simp only [ne_eq, not_not] at h
      exact h.symm ▸ Nat.zero_lt_succ 31
  flushed := by
    intro recs hroom c hc
    simp only [recEmitter, STEADY_RECS] at hroom hc
    split at hc
    · obtain rfl := List.mem_singleton.mp hc
      simp only [Staged, SPAN_STAGE]
      omega
    · cases hc

theorem packedEmitter_staged (em : PackedBuf) :
    ∀ c ∈ (packedEmitter.flush em proof).2, Staged c := by
  intro c hc
  simp only [packedEmitter] at hc
  split at hc
  · obtain rfl := List.mem_singleton.mp hc
    trivial
  · cases hc

theorem packedEmitter_roomy : Roomy packedEmitter proof fun _ => True where
  new := trivial
  push := fun _ _ _ _ _ _ _ => ⟨fun _ => trivial, packedEmitter_staged _⟩
  flush := fun _ => trivial
  flushed := fun _ _ => packedEmitter_staged _

variable {Room : ε → Prop} (hE : Roomy E proof Room)

/-- The buffer has room and all calls made fit. -/
def Fits (Room : ε → Prop) (acc : Scan ε) : Prop := Room acc.em ∧ ∀ c ∈ acc.calls, Staged c

include hE

theorem Fits.flush {acc : Scan ε} (h : Fits Room acc) : Fits Room (acc.flush E proof) := by
  refine ⟨hE.flush acc.em, fun c hc => ?_⟩
  rcases List.mem_append.mp hc with hold | hnew
  · exact h.2 c hold
  · exact hE.flushed acc.em h.1 c hnew

theorem Fits.emit (wantsSpans : Bool) {acc : Scan ε} (h : Fits Room acc) (e : FrameEntry) :
    Fits Room (acc.emit E proof wantsSpans e) := by
  unfold Scan.emit Scan.pushSpan
  split
  · obtain ⟨hroom, hcalls⟩ := hE.push acc.em e.firstSeq e.blocks.length
      (e.addr + (HEADER_LEN + 2)) (slice e.bytes (HEADER_LEN + 2) e.bytes.length) e.blocks h.1
    dsimp only
    split
    · refine ⟨hE.flush _, fun c hc => ?_⟩
      rcases List.mem_append.mp hc with hold | hnew
      · exact h.2 c hold
      · exact hcalls c hnew
    · rename_i hfull
      exact ⟨hroom (by simpa using hfull), h.2⟩
  · refine ⟨h.1, fun c hc => ?_⟩
    rcases List.mem_append.mp hc with hold | hnew
    · exact h.2 c hold
    · obtain ⟨c', -, rfl⟩ := List.mem_map.mp hnew
      trivial

omit hE in
/-- The counters have no say. -/
theorem Fits.counted {acc : Scan ε} (h : Fits Room acc) (w : ℕ) (pk byt dup : ℕ × ℕ)
    (dupMsgs emitted : ℕ) :
    Fits Room { acc with
      w := w, pk := pk, byt := byt, dup := dup, dupMsgs := dupMsgs, emitted := emitted } :=
  ⟨h.1, h.2⟩

theorem Fits.steadyStep (wantsSpans : Bool) (sessLo sessHi : ℕ) {acc : Scan ε}
    (h : Fits Room acc) (e : FrameEntry) :
    Fits Room (steadyStep E proof wantsSpans sessLo sessHi e acc).2 := by
  unfold Arbitrator.steadyStep
  dsimp only
  split_ifs
  · exact h
  · exact h
  · exact h.counted _ _ _ _ _ _
  · exact h
  · exact h
  · exact (Fits.emit hE wantsSpans (h.counted _ _ _ _ _ _) e).counted _ _ _ _ _ _

theorem Fits.applyGroup {acc : Scan ε} (h : Fits Room acc)
    (pairs : List (FrameEntry × FrameEntry)) :
    Fits Room (applyGroup E proof wantsSpans pairs acc) := by
  have hfold : ∀ (rest : List (FrameEntry × FrameEntry)) {acc : Scan ε}, Fits Room acc →
      Fits Room (rest.foldl (fun acc p => acc.emit E proof wantsSpans p.1) acc) := by
    intro rest
    induction rest with
    | nil => exact fun h => h
    | cons p rest ih => exact fun h => ih (Fits.emit hE wantsSpans h p.1)
  unfold Arbitrator.applyGroup
  split
  · exact h
  · exact (hfold _ (h.counted _ _ _ _ _ _)).counted _ _ _ _ _ _

theorem Fits.scanLadder (wantsSpans : Bool) (sessLo sessHi : ℕ) (ladder : Option SoaLadder8) (fuel : ℕ) {acc : Scan ε}
    (entries : List FrameEntry) (h : Fits Room acc) :
    Fits Room (scanLadder E proof wantsSpans sessLo sessHi ladder fuel entries acc).1 := by
  induction fuel generalizing acc entries with
  | zero => exact h
  | succ fuel ih =>
      have hgroup16 : ∀ acc', (ladder.bind fun ladder8 => if 16 ≤ entries.length then
          ladderGroup16Apply E proof wantsSpans sessLo sessHi ladder8 entries acc else none) =
            some acc' → Fits Room acc' := by
        intro acc' heq
        obtain ⟨ladder8, -, heq⟩ := Option.bind_eq_some_iff.mp heq
        unfold ladderGroup16Apply at heq
        dsimp only at heq
        split_ifs at heq
        cases heq
        exact Fits.applyGroup hE h _
      have hgroup8 : ∀ acc', (ladder.bind fun ladder8 => if 8 ≤ entries.length then
          ladderGroupApply E proof wantsSpans sessLo sessHi ladder8 entries acc else none) =
            some acc' → Fits Room acc' := by
        intro acc' heq
        obtain ⟨ladder8, -, heq⟩ := Option.bind_eq_some_iff.mp heq
        unfold ladderGroupApply at heq
        dsimp only at heq
        split_ifs at heq
        cases heq
        exact Fits.applyGroup hE h _
      unfold Arbitrator.scanLadder
      dsimp only
      split
      · rename_i heq
        have hgroup := hgroup16 _ heq
        exact ih _ ⟨hgroup.1, hgroup.2⟩
      · rename_i heq
        have hgroup := hgroup8 _ heq
        exact ih _ ⟨hgroup.1, hgroup.2⟩
      · exact h
      · have hstep := fun e => Fits.steadyStep hE wantsSpans sessLo sessHi h e
        split
        · exact hstep _
        · exact ih _ ⟨(hstep _).1, (hstep _).2⟩
        · exact ih _ (hstep _)

omit hE in
theorem steadyScanLadder_staged (hE : ∀ proof, Roomy E proof Room) (ladder : Option SoaLadder8)
    (s : Sequencer) (entries : List FrameEntry) :
    ∀ c ∈ (s.steadyScanLadder E wantsSpans ladder entries).calls, Staged c := by
  have hstart : Fits Room ({ w := s.w, em := E.new } : Scan ε) := ⟨(hE ⟨s.gen⟩).new, nofun⟩
  exact ((Fits.scanLadder (hE ⟨s.gen⟩) wantsSpans s.sessionLo s.sessionHi ladder entries.length
    entries hstart).flush (hE ⟨s.gen⟩)).2

omit hE in
theorem scanLoop_staged {scan : Sequencer → List FrameEntry → ScanResult} {nowNs : ℕ}
    (hscan : ∀ s entries, ∀ c ∈ (scan s entries).calls, Staged c) (fuel : ℕ) (s : Sequencer)
    (entries : List FrameEntry) :
    ∀ c ∈ (Sequencer.scanLoop scan wantsSpans nowNs fuel s entries).2, Staged c := by
  induction fuel generalizing s entries with
  | zero =>
      intro c hc
      cases hc
  | succ fuel ih =>
      have hcold : ∀ (t : Sequencer) (e : FrameEntry) (rest : List FrameEntry),
          ∀ c ∈ (Traced.andThen ((t.coldApply wantsSpans nowNs e).1,
            (t.coldApply wantsSpans nowNs e).2.map BatchCall.call)
            fun t => Sequencer.scanLoop scan wantsSpans nowNs fuel t rest).2, Staged c := by
        intro t e rest c hc
        rw [Traced.andThen_snd] at hc
        rcases List.mem_append.mp hc with hcall | hrest
        · obtain ⟨c', -, rfl⟩ := List.mem_map.mp hcall
          trivial
        · exact ih _ _ c hrest
      unfold Sequencer.scanLoop
      dsimp only
      split
      · cases (scan s entries).cold with
        | none => exact hscan s entries
        | some cold =>
            intro c hc
            rcases List.mem_append.mp hc with hscanned | hrest
            · exact hscan s entries c hscanned
            · exact hcold _ _ _ c hrest
      · cases entries with
        | nil =>
            intro c hc
            cases hc
        | cons e rest => exact hcold s e rest

end Staging

theorem ingestEntriesLadder_staged (s : Sequencer) (wantsSpans wantsPackedSpans : Bool)
    (entries : List FrameEntry) (nowNs : ℕ) (ladder : Option SoaLadder8) :
    ∀ c ∈ (s.ingestEntriesLadder wantsSpans wantsPackedSpans entries nowNs ladder).2,
      Staged c := by
  apply scanLoop_staged
  intro s entries
  split
  · exact steadyScanLadder_staged (fun _ => packedEmitter_roomy) ladder s entries
  · exact steadyScanLadder_staged (fun _ => recEmitter_roomy) ladder s entries

/-! ## Recorded calls -/

namespace PassReplay

variable {L L₀ : PassReplay}

/-- A recorded call reads inside the buffers of the ledger. -/
def Call.Within (L : PassReplay) : Call → Prop
  | .event _ | .msg _ _ _ | .span _ _ _ _ _ => True
  | .spanBatch _ recLo n => n ≤ SPAN_STAGE ∧ recLo + n ≤ L.recs.length
  | .packed _ _ _ _ wLo n => wLo + n ≤ L.words.length

def Sound (L : PassReplay) : Prop := ∀ c ∈ L.calls, c.Within L

/-- The buffers of the one begin those of the other. -/
structure Extends (L₀ L : PassReplay) : Prop where
  calls : L₀.calls <+: L.calls
  words : L₀.words <+: L.words
  recs : L₀.recs <+: L.recs

theorem Call.Within.mono {c : Call} (h : c.Within L₀) (hw : L₀.words.length ≤ L.words.length)
    (hr : L₀.recs.length ≤ L.recs.length) : c.Within L := by
  cases c with
  | event ev => trivial
  | msg gen seq msg => trivial
  | span gen first count body blocks => trivial
  | spanBatch gen recLo n => exact ⟨h.1, Nat.le_trans h.2 hr⟩
  | packed gen first total base wLo n => exact Nat.le_trans h hw

theorem replayCall_ok {c : Call} (h : c.Within L) : ∃ out, L.replayCall c = .ok out := by
  cases c with
  | event ev => exact ⟨_, rfl⟩
  | msg gen seq msg => exact ⟨_, rfl⟩
  | span gen first count body blocks => exact ⟨_, rfl⟩
  | spanBatch gen recLo n =>
      rw [replayCall, if_neg (Nat.not_lt.mpr h.1), if_neg (Nat.not_lt.mpr h.2)]
      exact ⟨_, rfl⟩
  | packed gen first total base wLo n =>
      rw [replayCall, if_neg (Nat.not_lt.mpr h)]
      exact ⟨_, rfl⟩

theorem slice_prefix {α : Type} {l l' : List α} (h : l <+: l') {a b : ℕ} (hb : b ≤ l.length) :
    slice l' a b = slice l a b := by
  obtain ⟨more, rfl⟩ := h
  exact slice_append_left hb

theorem replayCall_extends {c : Call} (h : c.Within L₀) (hext : Extends L₀ L) :
    L.replayCall c = L₀.replayCall c := by
  have hrecs := hext.recs.length_le
  have hwords := hext.words.length_le
  cases c with
  | event ev => rfl
  | msg gen seq msg => rfl
  | span gen first count body blocks => rfl
  | spanBatch gen recLo n =>
      obtain ⟨hn, hin⟩ := h
      rw [replayCall, replayCall, if_neg (by omega), if_neg (by omega), if_neg (by omega),
        if_neg (by omega), slice_prefix hext.recs hin]
  | packed gen first total base wLo n =>
      simp only [Call.Within] at h
      rw [replayCall, replayCall, if_neg (by omega), if_neg (by omega),
        slice_prefix hext.words h]

theorem mapM_ok {α β ε : Type} {f : α → Except ε β} {l : List α}
    (h : ∀ a ∈ l, ∃ b, f a = .ok b) : ∃ bs, l.mapM f = .ok bs := by
  induction l with
  | nil => exact ⟨[], rfl⟩
  | cons a l ih =>
      obtain ⟨b, hb⟩ := h a List.mem_cons_self
      obtain ⟨bs, hbs⟩ := ih fun a' ha => h a' (List.mem_cons_of_mem a ha)
      rw [List.mapM_cons, hb, hbs]
      exact ⟨b :: bs, rfl⟩

theorem mapM_congr {α β ε : Type} {f g : α → Except ε β} {l : List α}
    (h : ∀ a ∈ l, f a = g a) : l.mapM f = l.mapM g := by
  induction l with
  | nil => rfl
  | cons a l ih =>
      rw [List.mapM_cons, List.mapM_cons, h a List.mem_cons_self,
        ih fun a' ha => h a' (List.mem_cons_of_mem a ha)]

/-- No call of a sound ledger stops the process. -/
theorem Sound.replayCalls_ok (h : L.Sound) (lo : ℕ) {hi : ℕ} (hhi : hi ≤ L.calls.length) :
    ∃ out, L.replayCalls lo hi = .ok out := by
  apply mapM_ok
  intro i hi
  obtain ⟨hlo, hlt⟩ := List.mem_range'_1.mp hi
  have hget := List.getElem?_eq_getElem (l := L.calls) (show i < L.calls.length by omega)
  simp only [hget]
  exact replayCall_ok (h _ (List.getElem_mem _))

/-- What a sound ledger issues does not change with what is appended. -/
theorem Sound.replayCalls_extends (h : L₀.Sound) (hext : Extends L₀ L) {lo hi : ℕ}
    (hhi : hi ≤ L₀.calls.length) : L.replayCalls lo hi = L₀.replayCalls lo hi := by
  apply mapM_congr
  intro i hi
  obtain ⟨hlo, hlt⟩ := List.mem_range'_1.mp hi
  have hget := List.getElem?_eq_getElem (l := L₀.calls) (show i < L₀.calls.length by omega)
  have hget' : L.calls[i]? = L₀.calls[i]? := by
    obtain ⟨more, hmore⟩ := hext.calls
    rw [← hmore, List.getElem?_append_left (by omega)]
  simp only [hget', hget]
  exact replayCall_extends (h _ (List.getElem_mem _)) hext

/-! ## The recorder -/

/-- A ledger that the recorder appended to: everything but the buffers and the marks of the
recorder is as it was. -/
structure Teed (L₀ L : PassReplay) : Prop where
  ext : Extends L₀ L
  own : L.fusionBarrier = false → L₀.calls.length < L.calls.length
  sound : L.Sound
  batches : L.batches = L₀.batches
  version : L.version = L₀.version
  cursor : L.passBatchIdx = L₀.passBatchIdx
  recording : L.recording = L₀.recording
  enabled : L.enabled = L₀.enabled
  poison : L₀.poison = true → L.poison = true

theorem Teed.start (hsound : L.Sound) (hbarrier : L.fusionBarrier = true) : Teed L L where
  ext := ⟨List.prefix_refl _, List.prefix_refl _, List.prefix_refl _⟩
  own := fun h => nomatch hbarrier.symm.trans h
  sound := hsound
  batches := rfl
  version := rfl
  cursor := rfl
  recording := rfl
  enabled := rfl
  poison := fun h => h

section Recorder

variable (h : Teed L₀ L)

include h

/-- Marks of the recorder, and buffers that only grew. -/
theorem Teed.grow {calls : List Call} {words : List ℕ} {recs : List SpanRec}
    (hcalls : L₀.calls <+: calls) (hwords : L₀.words <+: words) (hrecs : L₀.recs <+: recs)
    (fused : ℕ) {barrier : Bool} (hown : barrier = false → L₀.calls.length < calls.length)
    (hsound : ∀ c ∈ calls, c.Within { L with words := words, recs := recs }) :
    Teed L₀ { L with
      calls := calls, words := words, recs := recs, fusedCalls := fused,
      fusionBarrier := barrier } where
  ext := ⟨hcalls, hwords, hrecs⟩
  own := hown
  sound := fun c hc => (hsound c hc).mono (Nat.le_refl _) (Nat.le_refl _)
  batches := h.batches
  version := h.version
  cursor := h.cursor
  recording := h.recording
  enabled := h.enabled
  poison := h.poison

theorem Teed.poisoned : Teed L₀ { L with poison := true } where
  ext := ⟨h.ext.calls, h.ext.words, h.ext.recs⟩
  own := h.own
  sound := fun c hc => (h.sound c hc).mono (Nat.le_refl _) (Nat.le_refl _)
  batches := h.batches
  version := h.version
  cursor := h.cursor
  recording := h.recording
  enabled := h.enabled
  poison := fun _ => rfl

theorem Teed.pushCall {c : Call} (hc : c.Within L) : Teed L₀ (L.pushCall c) := by
  unfold PassReplay.pushCall
  split
  · exact h
  split
  · exact h.poisoned
  · apply h.grow
    · exact h.ext.calls.trans (List.prefix_append _ _)
    · exact h.ext.words
    · exact h.ext.recs
    · intro hb
      have := h.own hb
      rw [List.length_append]
      omega
    · intro c' hc'
      rcases List.mem_append.mp hc' with hold | hnew
      · exact h.sound c' hold
      · rw [List.mem_singleton.mp hnew]
        exact hc

theorem Teed.spanBatch {recs : List SpanRec} (hn : recs.length ≤ SPAN_STAGE) (gen : ℕ) :
    Teed L₀ ({ L with recs := L.recs ++ recs }.pushCall
      (.spanBatch gen L.recs.length recs.length)) := by
  have hgrown : Teed L₀ { L with recs := L.recs ++ recs } := by
    apply h.grow h.ext.calls h.ext.words (h.ext.recs.trans (List.prefix_append _ _)) L.fusedCalls
    · exact h.own
    · exact fun c hc => (h.sound c hc).mono (Nat.le_refl _) (by simp)
  apply hgrown.pushCall
  exact ⟨hn, by simp⟩

theorem Teed.fused {pgen pfirst ptotal pbase pwLo pn : ℕ} {total delta : ℕ} {words : List ℕ}
    (hbarrier : L.fusionBarrier = false) (hend : pwLo + pn = L.words.length) :
    Teed L₀ { L with
      words := L.words ++ words.map fun w => wrappingAdd w delta
      calls := L.calls.dropLast ++
        [.packed pgen pfirst (ptotal + total) pbase pwLo (pn + words.length)]
      fusedCalls := L.fusedCalls + 1 } := by
  have hown := h.own hbarrier
  have hne : L.calls ≠ [] := List.ne_nil_of_length_pos (by omega)
  have hpre : L₀.calls <+: L.calls.dropLast := by
    apply List.prefix_of_prefix_length_le h.ext.calls (List.dropLast_prefix _)
    rw [List.length_dropLast]
    omega
  apply h.grow (hpre.trans (List.prefix_append _ _))
    (h.ext.words.trans (List.prefix_append _ _)) h.ext.recs
  · intro _
    have := hpre.length_le
    rw [List.length_append, List.length_singleton]
    omega
  · intro c hc
    rcases List.mem_append.mp hc with hold | hnew
    · apply (h.sound c (List.mem_of_mem_dropLast hold)).mono
      · simp
      · exact Nat.le_refl _
    · rw [List.mem_singleton.mp hnew]
      simp only [Call.Within, List.length_append, List.length_map]
      omega

/-- A packed call that is not absorbed: it may take the barrier down, but brings a call of
this batch. -/
theorem Teed.packed (words : List ℕ) (gen first total base : ℕ) {barrier : Bool} :
    Teed L₀ { L with
      words := L.words ++ words
      calls := L.calls ++ [.packed gen first total base L.words.length words.length]
      fusionBarrier := barrier } := by
  apply h.grow (h.ext.calls.trans (List.prefix_append _ _))
    (h.ext.words.trans (List.prefix_append _ _)) h.ext.recs
  · intro _
    have := h.ext.calls.length_le
    rw [List.length_append, List.length_singleton]
    omega
  · intro c hc
    rcases List.mem_append.mp hc with hold | hnew
    · apply (h.sound c hold).mono
      · simp
      · exact Nat.le_refl _
    · rw [List.mem_singleton.mp hnew]
      simp [Call.Within]

theorem Teed.packedBatch (proof : LiveFeedProof) (firstSeq total base : ℕ) (words : List ℕ) :
    Teed L₀ (L.tee (.spanBatchPacked proof firstSeq total base words)) := by
  unfold PassReplay.tee
  dsimp only
  split
  · rename_i hopen
    obtain ⟨hrec, hpoison⟩ := hopen
    split
    · exact h.poisoned
    · rename_i hroom
      obtain ⟨-, hcalls⟩ := not_or.mp hroom
      have hpush : ∀ barrier call, ({ L with
          words := L.words ++ words, fusionBarrier := barrier } : PassReplay).pushCall call =
            { L with
              words := L.words ++ words, calls := L.calls ++ [call], fusionBarrier := barrier } := by
        intro barrier call
        unfold PassReplay.pushCall
        rw [if_neg (by simp [hpoison, Option.isSome_iff_ne_none.mp hrec]),
          if_neg hcalls]
      unfold tryFusePacked
      split
      · rw [if_neg Bool.false_ne_true, hpush L.fusionBarrier]
        exact h.packed words _ _ _ _
      split
      · rw [if_neg Bool.false_ne_true, hpush false]
        exact h.packed words _ _ _ _
      · rename_i hbarrier
        split
        · split
          · rw [if_neg Bool.false_ne_true, hpush L.fusionBarrier]
            exact h.packed words _ _ _ _
          · rename_i hguard
            rw [if_pos rfl]
            apply h.fused (by simpa using hbarrier)
            omega
        · rw [if_neg Bool.false_ne_true, hpush L.fusionBarrier]
          exact h.packed words _ _ _ _
  · exact h

/-- The recorder appends to the buffers of the ledger and to nothing else. -/
theorem Teed.tee {c : BatchCall} (hc : Staged c) : Teed L₀ (L.tee c) := by
  cases c with
  | call c =>
      cases c with
      | onMsg proof seq msg => exact h.pushCall trivial
      | onEvent ev => exact h.pushCall trivial
      | onSpan proof firstSeq count body blocks => exact h.pushCall trivial
  | spanBatch proof recs =>
      simp only [PassReplay.tee]
      split
      · split
        · exact h.poisoned
        · exact h.spanBatch hc proof.gen
      · exact h
  | spanBatchPacked proof firstSeq total base words =>
      exact h.packedBatch proof firstSeq total base words

theorem Teed.teeAll {calls : List BatchCall} (hcalls : ∀ c ∈ calls, Staged c) :
    Teed L₀ (calls.foldl PassReplay.tee L) := by
  induction calls generalizing L with
  | nil => exact h
  | cons c calls ih =>
      exact ih (h.tee (hcalls c List.mem_cons_self)) fun c' hc' =>
        hcalls c' (List.mem_cons_of_mem c hc')

end Recorder

/-! ## A ledger that is off -/

theorem tee_off (L : PassReplay) (c : BatchCall) :
    (L.tee c).enabled = L.enabled ∧ (L.poison = true → (L.tee c).poison = true) := by
  have hpush : ∀ (L : PassReplay) (call : Call), (L.pushCall call).enabled = L.enabled ∧
      (L.poison = true → (L.pushCall call).poison = true) := by
    intro L call
    unfold pushCall
    split_ifs
    · exact ⟨rfl, fun h => h⟩
    · exact ⟨rfl, fun _ => rfl⟩
    · exact ⟨rfl, fun h => h⟩
  have hopen : ∀ {L' : PassReplay}, (L.recording.isSome ∧ L.poison = false) →
      L'.enabled = L.enabled →
        L'.enabled = L.enabled ∧ (L.poison = true → L'.poison = true) := by
    intro L' ho he
    exact ⟨he, fun hp => nomatch ho.2.symm.trans hp⟩
  cases c with
  | call c =>
      cases c with
      | onMsg proof seq msg => exact hpush L _
      | onEvent ev => exact hpush L _
      | onSpan proof firstSeq count body blocks => exact hpush L _
  | spanBatch proof recs =>
      simp only [tee]
      split_ifs with ho
      · exact ⟨rfl, fun _ => rfl⟩
      · exact hopen ho (hpush _ _).1
      · exact ⟨rfl, fun h => h⟩
  | spanBatchPacked proof firstSeq total base words =>
      have hfuse : (L.tryFusePacked proof.gen firstSeq total base words).1.enabled =
          L.enabled := by
        unfold tryFusePacked
        split
        · rfl
        split
        · rfl
        split
        · split
          · rfl
          · rfl
        · rfl
      simp only [tee]
      split_ifs with ho
      · exact ⟨rfl, fun _ => rfl⟩
      · exact hopen ho hfuse
      · exact hopen ho ((hpush _ _).1.trans hfuse)
      · exact ⟨rfl, fun h => h⟩

theorem teeAll_off (L : PassReplay) (calls : List BatchCall) :
    (calls.foldl tee L).enabled = L.enabled ∧
      (L.poison = true → (calls.foldl tee L).poison = true) := by
  induction calls generalizing L with
  | nil => exact ⟨rfl, fun h => h⟩
  | cons c calls ih =>
      obtain ⟨he, hp⟩ := ih (L.tee c)
      obtain ⟨he', hp'⟩ := L.tee_off c
      exact ⟨he.trans he', fun h => hp (hp' h)⟩

theorem beginRecord_off (L : PassReplay) (t : BatchView) (seq : Sequencer) :
    (L.beginRecord t seq).enabled = L.enabled ∧ (L.beginRecord t seq).poison = L.poison := by
  unfold beginRecord
  dsimp only
  split_ifs
  · exact ⟨rfl, rfl⟩
  · exact ⟨rfl, rfl⟩
  · exact ⟨rfl, rfl⟩

theorem sealBatch_off (L : PassReplay) (seq : Sequencer) :
    (L.sealBatch seq).enabled = L.enabled ∧
      (L.poison = true → (L.sealBatch seq).poison = true) := by
  unfold sealBatch
  cases L.recording with
  | none => exact ⟨rfl, fun h => h⟩
  | some r =>
      dsimp only
      split
      · exact ⟨rfl, fun _ => rfl⟩
      · exact ⟨rfl, fun h => h⟩

end PassReplay

namespace Bench

variable (b : Bench)

theorem off_eq_false {L : PassReplay} :
    b.off L = false ↔ L.enabled = true ∧ L.poison = false ∧ b.regime = true := by
  simp [off, and_assoc]

theorem off_of {L L' : PassReplay} (h : b.off L = true) (he : L'.enabled = L.enabled)
    (hp : L.poison = true → L'.poison = true) : b.off L' = true := by
  simp only [off, Bool.or_eq_true, Bool.not_eq_true'] at h ⊢
  rcases h with (h | h) | h
  · exact .inl (.inl (he.trans h))
  · exact .inl (.inr (hp h))
  · exact .inr h

/-- A ledger that is off scans live and stays off. -/
theorem scanLive_off {p i : ℕ} {L : PassReplay} {h : Harness} (hoff : b.off L = true) :
    b.off (b.scanLive p i L h).ledger = true := by
  unfold scanLive
  dsimp only
  obtain ⟨he, hp⟩ := L.beginRecord_off (b.view p i) h.seq
  apply b.off_of hoff
  · exact ((PassReplay.sealBatch_off _ _).1.trans (PassReplay.teeAll_off _ _).1).trans he
  · intro hpoison
    exact (PassReplay.sealBatch_off _ _).2 ((PassReplay.teeAll_off _ _).2 (hp.trans hpoison))

theorem tryReplay_off {p i : ℕ} {h : Harness} (hoff : b.off h.ledger = true) :
    h.ledger.tryReplay (b.view p i) h.seq = .ok (h.ledger, none) := by
  rw [PassReplay.tryReplay, if_pos]
  simpa [off, view, or_assoc] using hoff

/-! ## The template -/

/-- Record `k` of the template was made of batch `first + k`, under the version that `ver`
names, and would be issued as it was then; each record starts at the watermark that the one
before it ends with. -/
structure Template (L : PassReplay) (trace : List Served) (first : ℕ) (ver : ℕ → ℕ) : Prop where
  sound : L.Sound
  record : ∀ k r, L.batches[k]? = some r → r.callHi ≤ L.calls.length ∧
    (r.rxStart, r.len) = b.bounds (first + k) ∧
      ∃ p calls shown,
        .live p (first + k) (ver (first + k)) false (some (r, .ok calls)) shown ∈ trace ∧
          L.replayCalls r.callLo r.callHi = .ok calls
  start : ∀ r, first = 0 → L.batches[0]? = some r → r.wIn = 0
  chain : ∀ k r r', L.batches[k]? = some r → L.batches[k + 1]? = some r' → r'.wIn = r.wOut

/-- The template is complete and of the version that both passes have shown so far; batch `i`
is next. -/
structure Replaying (p i : ℕ) (h : Harness) : Prop where
  on : b.off h.ledger = false
  cursor : h.ledger.passBatchIdx = i
  size : h.ledger.batches.length = b.batches
  template : b.Template h.ledger h.trace 0 fun _ => h.ledger.version
  reach : ∀ r, h.ledger.batches[i]? = some r → r.wIn = h.seq.w
  pos : 0 < p
  before : ∀ k, k < b.batches → b.version (p - 1) k = h.ledger.version
  seen : ∀ k, k < i → b.version p k = h.ledger.version

/-- Why pass `p` records from batch `j` on. -/
structure Cause (p j : ℕ) : Prop where
  fresh : j = 0 → 0 < p → ∃ k, k < b.batches ∧ b.version (p - 1) k ≠ b.version p 0
  late : 0 < j → 0 < p ∧ b.version (p - 1) 0 = b.version p 0 ∧
    (∀ k, k < j → b.version p k = b.version p 0) ∧ b.version p j ≠ b.version p 0

/-- The batches of this pass from `j` on are recorded; batch `i` is next. -/
structure Recording (p j i : ℕ) (h : Harness) : Prop where
  on : b.off h.ledger = false
  cursor : h.ledger.passBatchIdx = i
  le : j ≤ i
  size : h.ledger.batches.length = i - j
  version : j < i → h.ledger.version = b.version p j
  template : b.Template h.ledger h.trace j (b.version p)
  reach : ∀ k r, k + 1 = i - j → h.ledger.batches[k]? = some r → r.wOut = h.seq.w
  start : j = 0 → i = 0 → h.seq.w = 0
  cause : b.Cause p j

/-- The pass opens with a template of another version. -/
structure Stale (p : ℕ) (h : Harness) : Prop where
  on : b.off h.ledger = false
  cursor : h.ledger.passBatchIdx = 0
  filled : h.ledger.batches ≠ []
  version : h.ledger.version ≠ b.version p 0
  start : h.seq.w = 0
  cause : b.Cause p 0

/-- What holds in front of batch `i` of pass `p`. -/
def At (p i : ℕ) (h : Harness) : Prop :=
  b.off h.ledger = true ∨ b.Replaying p i h ∨ (∃ j, b.Recording p j i h ∧ (j < i ∨ i = 0)) ∨
    (i = 0 ∧ b.Stale p h)

variable {b}

/-! ## Recording one batch -/

theorem Template.mono {L : PassReplay} {trace : List Served} {first : ℕ} {ver : ℕ → ℕ}
    (h : b.Template L trace first ver) (more : List Served) :
    b.Template L (trace ++ more) first ver :=
  { h with
    record := by
      intro k r hk
      obtain ⟨hhi, hbounds, p, calls, shown, hmem, hcalls⟩ := h.record k r hk
      exact ⟨hhi, hbounds, p, calls, shown, List.mem_append_left _ hmem, hcalls⟩ }

/-- The template is the batches and the buffers alone. -/
theorem Template.congr {L L' : PassReplay} {trace : List Served} {first : ℕ} {ver : ℕ → ℕ}
    (h : b.Template L trace first ver) (hbatches : L'.batches = L.batches)
    (hcalls : L'.calls = L.calls) (hwords : L'.words = L.words) (hrecs : L'.recs = L.recs) :
    b.Template L' trace first ver where
  sound := by
    intro c hc
    rw [hcalls] at hc
    exact (h.sound c hc).mono (by rw [hwords]) (by rw [hrecs])
  record := by
    intro k r hk
    rw [hbatches] at hk
    obtain ⟨hhi, hbounds, p, calls, shown, hmem, hissue⟩ := h.record k r hk
    refine ⟨by rwa [hcalls], hbounds, p, calls, shown, hmem, ?_⟩
    rw [h.sound.replayCalls_extends _ hhi, hissue]
    exact ⟨by rw [hcalls], by rw [hwords], by rw [hrecs]⟩
  start := by
    rw [hbatches]
    exact h.start
  chain := by
    rw [hbatches]
    exact h.chain

/-- An empty template. -/
theorem Template.empty {L : PassReplay} {trace : List Served} {first : ℕ} {ver : ℕ → ℕ}
    (hb : L.batches = []) (hs : L.Sound) : b.Template L trace first ver where
  sound := hs
  record := by simp [hb]
  start := by simp [hb]
  chain := by simp [hb]

/-- The opened ledger of a recording: its buffers are those of the template. -/
theorem Recording.opened {p j i : ℕ} {h : Harness} (hr : b.Recording p j i h) :
    let L := h.ledger.beginRecord (b.view p i) h.seq
    PassReplay.Teed L L ∧ L.batches = h.ledger.batches ∧ L.passBatchIdx = i ∧
      L.version = b.version p j ∧ L.recording = some
        { rxStart := (b.bounds i).1
          len := (b.bounds i).2
          wIn := h.seq.w
          callLo := L.calls.length
          callHi := L.calls.length
          countersAfter := {}
          wOut := h.seq.w
          vtOut := 0 } ∧ (h.ledger.batches ≠ [] → PassReplay.Extends h.ledger L) := by
  obtain ⟨hen, hpo, -⟩ := b.off_eq_false.mp hr.on
  have hsize := hr.size
  have hle := hr.le
  unfold PassReplay.beginRecord
  dsimp only
  rw [if_neg (by simp [hen, hpo])]
  by_cases hb : h.ledger.batches = []
  · rw [if_pos hb]
    have hij : i = j := by
      rw [hb, List.length_nil] at hsize
      omega
    refine ⟨?_, rfl, hr.cursor, ?_, rfl, fun hne => absurd hb hne⟩
    · apply PassReplay.Teed.start
      · nofun
      · rfl
    · rw [hij]
      rfl
  · rw [if_neg hb]
    have hij : j < i := by
      have := List.length_pos_iff.mpr hb
      omega
    refine ⟨?_, rfl, hr.cursor, hr.version hij, rfl, fun _ => ?_⟩
    · apply PassReplay.Teed.start
      · exact fun c hc => (hr.template.sound c hc).mono (Nat.le_refl _) (Nat.le_refl _)
      · rfl
    · exact ⟨List.prefix_refl _, List.prefix_refl _, List.prefix_refl _⟩

/-- The record of a batch takes its place behind those before it. -/
theorem Template.snoc {L L' : PassReplay} {trace : List Served} {first : ℕ} {ver : ℕ → ℕ}
    (h : b.Template L trace first ver) (p : ℕ) (calls shown : List BatchCall) {r : BatchRec}
    {e : Served} (hbatches : L'.batches = L.batches ++ [r]) (hsound : L'.Sound)
    (hext : L.batches ≠ [] → PassReplay.Extends L L')
    (hhi : r.callHi ≤ L'.calls.length)
    (hbounds : (r.rxStart, r.len) = b.bounds (first + L.batches.length))
    (he : e = .live p (first + L.batches.length) (ver (first + L.batches.length)) false
      (some (r, .ok calls)) shown)
    (hcalls : L'.replayCalls r.callLo r.callHi = .ok calls)
    (hstart : first = 0 → L.batches = [] → r.wIn = 0)
    (hchain : ∀ k r', k + 1 = L.batches.length → L.batches[k]? = some r' → r'.wOut = r.wIn) :
    b.Template L' (trace ++ [e]) first ver where
  sound := hsound
  record := by
    intro k r' hk
    rw [hbatches] at hk
    rcases Nat.lt_trichotomy k L.batches.length with hlt | rfl | hgt
    · rw [List.getElem?_append_left hlt] at hk
      obtain ⟨hhi', hbounds', p', calls', shown', hmem, hcalls'⟩ := h.record k r' hk
      have hext := hext (List.ne_nil_of_length_pos (by omega))
      refine ⟨Nat.le_trans hhi' hext.calls.length_le, hbounds', p', calls', shown',
        List.mem_append_left _ hmem, ?_⟩
      rw [h.sound.replayCalls_extends hext hhi']
      exact hcalls'
    · rw [List.getElem?_concat_length] at hk
      cases hk
      exact ⟨hhi, hbounds, p, calls, shown, by simp [he], hcalls⟩
    · rw [List.getElem?_eq_none (by simp; omega)] at hk
      cases hk
  start := by
    intro r' hfirst hk
    rw [hbatches] at hk
    by_cases hb : L.batches = []
    · rw [hb, List.nil_append, List.getElem?_cons_zero] at hk
      cases hk
      exact hstart hfirst hb
    · rw [List.getElem?_append_left (List.length_pos_iff.mpr hb)] at hk
      exact h.start r' hfirst hk
  chain := by
    intro k r' r'' hk hk'
    rw [hbatches] at hk hk'
    rcases Nat.lt_trichotomy (k + 1) L.batches.length with hlt | heq | hgt
    · rw [List.getElem?_append_left (by omega)] at hk hk'
      exact h.chain k r' r'' hk hk'
    · rw [List.getElem?_append_left (by omega)] at hk
      rw [heq, List.getElem?_concat_length] at hk'
      cases hk'
      exact (hchain k r' heq hk).symm
    · rw [List.getElem?_eq_none (by simp; omega)] at hk'
      cases hk'

theorem Recording.scanLive {p j i : ℕ} {h : Harness} (hr : b.Recording p j i h) :
    b.off (b.scanLive p i h.ledger h).ledger = true ∨
      b.Recording p j (i + 1) (b.scanLive p i h.ledger h) := by
  obtain ⟨hteed, hbatches, hcursor, hversion, hrec, hext⟩ := hr.opened
  have hstaged := ingestEntriesLadder_staged h.seq b.wantsSpans b.wantsPackedSpans (b.entries p i)
    (b.nowNs p i) b.ladder
  have hon := hr.on
  obtain ⟨hen, hpo, hre⟩ := b.off_eq_false.mp hon
  obtain ⟨hen', -⟩ := h.ledger.beginRecord_off (b.view p i) h.seq
  unfold Bench.scanLive
  dsimp only
  generalize h.seq.ingestEntriesLadder b.wantsSpans b.wantsPackedSpans (b.entries p i)
    (b.nowNs p i) b.ladder = r at hstaged ⊢
  generalize h.ledger.beginRecord (b.view p i) h.seq = L at *
  have hall := hteed.teeAll hstaged
  generalize r.2.foldl PassReplay.tee L = T at hall ⊢
  have hTrec := hall.recording.trans hrec
  obtain ⟨calls, hcalls⟩ := hall.sound.replayCalls_ok L.calls.length
    (Nat.le_refl T.calls.length)
  have hsize := hr.size
  have hle := hr.le
  rw [hTrec, Option.map_some, PassReplay.sealBatch, hTrec]
  dsimp only
  split
  · left
    simp [off]
  rw [hcalls]
  by_cases hTpo : T.poison = true
  · left
    simp [off, hTpo]
  right
  have hTidx : T.passBatchIdx = i := hall.cursor.trans hcursor
  have hTbatches : T.batches = h.ledger.batches := hall.batches.trans hbatches
  have hplace : ¬T.passBatchIdx < T.batches.length := by
    rw [hTidx, hTbatches]
    omega
  simp only [if_neg hplace]
  have hat : j + h.ledger.batches.length = i := by omega
  exact
    { on := by
        rw [b.off_eq_false]
        exact ⟨(hall.enabled.trans hen').trans hen, by simpa using hTpo, hre⟩
      cursor := congrArg (· + 1) hTidx
      le := by omega
      size := by
        simp only [List.length_append, List.length_singleton, hTbatches]
        omega
      version := fun _ => hall.version.trans hversion
      template := by
        refine Template.snoc hr.template p calls r.2
          (congrArg (· ++ [_]) hTbatches) ?_ ?_ (Nat.le_refl _) ?_ ?_ ?_ ?_ ?_
        · exact fun c hc => (hall.sound c hc).mono (Nat.le_refl _) (Nat.le_refl _)
        · intro hne
          have hold := hext hne
          exact ⟨hold.calls.trans hall.ext.calls, hold.words.trans hall.ext.words,
            hold.recs.trans hall.ext.recs⟩
        · rw [hat]
          rfl
        · rw [hat, hon]
        · exact hcalls
        · intro hj hb
          apply hr.start hj
          rw [hb, List.length_nil] at hsize
          omega
        · intro k r' hk hget
          exact hr.reach k r' (by omega) hget
      reach := by
        intro k r' hk hget
        have hlast : k = h.ledger.batches.length := by omega
        simp only [hTbatches, hlast, List.getElem?_concat_length] at hget
        cases hget
        rfl
      start := by
        intro _ hi
        omega
      cause := hr.cause }

/-! ## Replaying one batch -/

/-- A complete template of the version at hand is issued again, from the record made of the
batch. -/
theorem Replaying.replay {p i : ℕ} {h : Harness} (hr : b.Replaying p i h) (hi : i < b.batches)
    (hv : b.version p i = h.ledger.version) :
    ∃ h' r calls, b.batchStep p i h = .ok h' ∧ b.Replaying p (i + 1) h' ∧
      h'.trace = h.trace ++ [.replayed p i (b.version p i) r calls] ∧
        ∃ p' shown, .live p' i (b.version p i) false (some (r, .ok calls)) shown ∈ h.trace := by
  obtain ⟨hen, hpo, hre⟩ := b.off_eq_false.mp hr.on
  have hlt : i < h.ledger.batches.length := by
    rw [hr.size]
    exact hi
  have hget := List.getElem?_eq_getElem hlt
  generalize h.ledger.batches[i] = r at hget
  obtain ⟨hhi, hbounds, p', calls, shown, hmem, hcalls⟩ := hr.template.record i r hget
  rw [Nat.zero_add] at hbounds hmem
  have htry : h.ledger.tryReplay (b.view p i) h.seq =
      .ok ({ h.ledger with
          passBatchIdx := h.ledger.passBatchIdx + 1
          replayedBatches := h.ledger.replayedBatches + 1 },
        some (r, h.seq.replayApply r.wOut r.countersAfter r.vtOut, calls)) := by
    have hview : (b.view p i).regime = true := hre
    have hversion : (b.view p i).masterVersion = h.ledger.version := hv
    have hbound : (r.rxStart, r.len) = (b.view p i).bounds := hbounds
    rw [PassReplay.tryReplay, if_neg (by simp [hen, hpo, hview]), hr.cursor, hget]
    dsimp only
    rw [if_neg (not_not.mpr hversion), if_neg (not_not.mpr hbound),
      if_neg (not_not.mpr (hr.reach r hget).symm), hcalls]
    rfl
  refine ⟨_, r, calls, by rw [batchStep, htry]; rfl, ?_, rfl, p', shown, hv ▸ hmem⟩
  exact
    { on := hr.on
      cursor := congrArg (· + 1) hr.cursor
      size := hr.size
      template := (hr.template.mono _).congr rfl rfl rfl rfl
      reach := fun r' hget' => hr.template.chain i r r' hget hget'
      pos := hr.pos
      before := hr.before
      seen := by
        intro k hk
        rcases Nat.lt_succ_iff_lt_or_eq.mp hk with hlt | rfl
        · exact hr.seen k hlt
        · exact hv }

/-! ## One batch -/

variable (b)

/-- All of the pass before this one and all of this one so far have shown version `v`. -/
def Due (p i v : ℕ) : Prop :=
  0 < p ∧ (∀ k, k < b.batches → b.version (p - 1) k = v) ∧ ∀ k, k ≤ i → b.version p k = v

/-- A replay issues the record of a live scan of the same batch under the same version; a
live scan was not due for a replay, or the ledger is off. -/
def Answers (p i : ℕ) (trace : List Served) : Served → Prop
  | .replayed p' i' v r calls => p' = p ∧ i' = i ∧ v = b.version p i ∧
      ∃ p'' shown, .live p'' i' v false (some (r, .ok calls)) shown ∈ trace
  | .live p' i' _ off _ _ => p' = p ∧ i' = i ∧ (off = true ∨ ∀ v, ¬b.Due p i v)

variable {b}

theorem Cause.not_due {p j i : ℕ} (h : b.Cause p j) (hj : j ≤ i) (v : ℕ) : ¬b.Due p i v := by
  rintro ⟨hp, hbefore, hseen⟩
  rcases Nat.eq_zero_or_pos j with rfl | hpos
  · obtain ⟨k, hk, hne⟩ := h.fresh rfl hp
    exact hne ((hbefore k hk).trans (hseen 0 (Nat.zero_le i)).symm)
  · obtain ⟨-, -, -, hne⟩ := h.late hpos
    exact hne ((hseen j hj).trans (hseen 0 (Nat.zero_le i)).symm)

theorem scanLive_trace (p i : ℕ) (L : PassReplay) (h : Harness) :
    ∃ made shown, (b.scanLive p i L h).trace =
      h.trace ++ [.live p i (b.version p i) (b.off L) made shown] :=
  ⟨_, _, rfl⟩

/-- A live scan of a recording that a replay was not due for. -/
theorem Recording.step {p j i : ℕ} {h : Harness} {L : PassReplay}
    (hr : b.Recording p j i { h with ledger := L })
    (hlive : b.batchStep p i h = .ok (b.scanLive p i L h)) :
    ∃ h' e, b.batchStep p i h = .ok h' ∧ b.At p (i + 1) h' ∧ h'.trace = h.trace ++ [e] ∧
      b.Answers p i h.trace e := by
  obtain ⟨made, shown, htrace⟩ := b.scanLive_trace p i L h
  refine ⟨_, _, hlive, ?_, htrace, rfl, rfl, .inr (hr.cause.not_due hr.le)⟩
  rcases hr.scanLive with hoff | hnext
  · exact .inl hoff
  · exact .inr (.inr (.inl ⟨j, hnext, .inl (Nat.lt_succ_of_le hr.le)⟩))

theorem tryReplay_version {p i : ℕ} {h : Harness} (hon : b.off h.ledger = false)
    (hin : h.ledger.passBatchIdx < h.ledger.batches.length)
    (hv : b.version p i ≠ h.ledger.version) :
    b.batchStep p i h = .ok (b.scanLive p i { h.ledger.clear with
      version := b.version p i, reRecords := h.ledger.reRecords + 1 } h) := by
  obtain ⟨hen, hpo, hre⟩ := b.off_eq_false.mp hon
  have hview : (b.view p i).regime = true := hre
  have hversion : (b.view p i).masterVersion ≠ h.ledger.version := hv
  rw [batchStep, PassReplay.tryReplay, if_neg (by simp [hen, hpo, hview]),
    List.getElem?_eq_getElem hin]
  dsimp only
  rw [if_pos hversion]
  rfl

/-- The emptied template is open for the batch at hand. -/
theorem recording_cleared {p i : ℕ} {h : Harness} (hon : b.off h.ledger = false)
    (hcursor : h.ledger.passBatchIdx = i) (hcause : b.Cause p i) (hw : i = 0 → h.seq.w = 0) :
    b.Recording p i i { h with ledger := { h.ledger.clear with
      version := b.version p i, reRecords := h.ledger.reRecords + 1 } } where
  on := hon
  cursor := hcursor
  le := Nat.le_refl i
  size := (Nat.sub_self i).symm
  version := fun hlt => absurd hlt (Nat.lt_irrefl i)
  template := Template.empty rfl nofun
  reach := by
    intro k r hk
    omega
  start := fun _ hi => hw hi
  cause := hcause

/-- A ledger that is off answers live. -/
theorem batchStep_off {p i : ℕ} {h : Harness} (hoff : b.off h.ledger = true) :
    ∃ h' e, b.batchStep p i h = .ok h' ∧ b.off h'.ledger = true ∧ h'.trace = h.trace ++ [e] ∧
      b.Answers p i h.trace e := by
  obtain ⟨made, shown, htrace⟩ := b.scanLive_trace p i h.ledger h
  exact ⟨_, _, by rw [batchStep, tryReplay_off b hoff]; rfl, b.scanLive_off hoff, htrace, rfl, rfl,
    .inl hoff⟩

/-- One batch of a pass. -/
theorem batchStep_at {p i : ℕ} {h : Harness} (hi : i < b.batches) (hat : b.At p i h) :
    ∃ h' e, b.batchStep p i h = .ok h' ∧ b.At p (i + 1) h' ∧ h'.trace = h.trace ++ [e] ∧
      b.Answers p i h.trace e := by
  rcases hat with hoff | hr | ⟨j, hr, -⟩ | ⟨rfl, hs⟩
  · obtain ⟨h', e, hstep, hoff', htrace, hans⟩ := batchStep_off (p := p) (i := i) hoff
    exact ⟨h', e, hstep, .inl hoff', htrace, hans⟩
  · by_cases hv : b.version p i = h.ledger.version
    · obtain ⟨h', r, calls, hstep, hnext, htrace, p', shown, hmem⟩ := hr.replay hi hv
      exact ⟨h', _, hstep, .inr (.inl hnext), htrace, rfl, rfl, rfl, p', shown, hmem⟩
    · have hzero := hr.before 0 (Nat.lt_of_le_of_lt (Nat.zero_le i) hi)
      have hcause : b.Cause p i :=
        { fresh := fun hi0 _ => ⟨0, by omega, fun heq => hv (hi0 ▸ heq.symm.trans hzero)⟩
          late := by
            intro hpos
            have hfirst := hr.seen 0 hpos
            exact ⟨hr.pos, hzero.trans hfirst.symm, fun k hk => (hr.seen k hk).trans hfirst.symm,
              fun heq => hv (heq.trans hfirst)⟩ }
      refine Recording.step (recording_cleared hr.on hr.cursor hcause ?_)
        (tryReplay_version hr.on ?_ hv)
      · rintro rfl
        have hlt : 0 < h.ledger.batches.length := by
          rw [hr.size]
          exact hi
        have hget := List.getElem?_eq_getElem hlt
        exact (hr.reach _ hget).symm.trans (hr.template.start _ rfl hget)
      · rw [hr.cursor, hr.size]
        exact hi
  · have hmiss : h.ledger.batches[h.ledger.passBatchIdx]? = none := by
      have := hr.size
      rw [hr.cursor, List.getElem?_eq_none]
      omega
    obtain ⟨hen, hpo, hre⟩ := b.off_eq_false.mp hr.on
    have hview : (b.view p i).regime = true := hre
    apply Recording.step (L := h.ledger) hr
    rw [batchStep, PassReplay.tryReplay, if_neg (by simp [hen, hpo, hview]), hmiss]
    rfl
  · refine Recording.step (recording_cleared hs.on hs.cursor hs.cause fun _ => hs.start)
      (tryReplay_version hs.on ?_ hs.version.symm)
    rw [hs.cursor]
    exact List.length_pos_iff.mpr hs.filled

/-! ## Passes and runs -/

variable (b)

/-- Every replay issues the record of an earlier live scan of the same batch under the same
version. -/
def Vouched (served : List Served) : Prop :=
  ∀ k p i v r calls, served[k]? = some (.replayed p i v r calls) →
    ∃ p' shown, .live p' i v false (some (r, .ok calls)) shown ∈ served.take k

/-- What was due for a replay was replayed, or found the ledger off. -/
def Engaged (p i : ℕ) (trace : List Served) : Prop :=
  ∀ p' i' v, (p' < p ∨ p' = p ∧ i' < i) → i' < b.batches → b.Due p' i' v →
    (∃ r calls, .replayed p' i' v r calls ∈ trace) ∨
      ∃ w made shown, .live p' i' w true made shown ∈ trace

/-- A run of passes stops at no guard, issues only what was recorded of the same batch under
the same version, and replays whatever follows a full pass of one version. -/
def Rerecords (enabled fusion : Bool) (passes : ℕ) : Prop :=
  ∃ h, b.run (.newForced enabled fusion) passes = .ok h ∧ Vouched h.trace ∧
    b.Engaged passes 0 h.trace

/-- A pass that opens with the version of the pass before it does not close with the first
other version that it shows in a later batch. -/
def Steadied (passes : ℕ) : Prop :=
  ∀ p j, p + 2 < passes → 0 < j → j < b.batches → b.version p 0 = b.version (p + 1) 0 →
    (∀ k, k < j → b.version (p + 1) k = b.version (p + 1) 0) →
      b.version (p + 1) j ≠ b.version (p + 1) 0 → b.version (p + 2) 0 ≠ b.version (p + 1) j

/-- The template at the end of pass `p`: recorded, or last confirmed, from batch `j` on. -/
structure Full (p j : ℕ) (h : Harness) : Prop where
  on : b.off h.ledger = false
  lt : j < b.batches
  size : h.ledger.batches.length = b.batches - j
  version : h.ledger.version = b.version p j
  template : b.Template h.ledger h.trace j (b.version p)
  late : 0 < j → 0 < p ∧ b.version (p - 1) 0 = b.version p 0 ∧
    (∀ k, k < j → b.version p k = b.version p 0) ∧ b.version p j ≠ b.version p 0

/-- What holds between two passes. -/
def Between (p : ℕ) (h : Harness) : Prop :=
  b.off h.ledger = true ∨
    (h.ledger.batches = [] ∧ h.ledger.Sound ∧ (p = 0 ∨ b.batches = 0)) ∨
      ∃ q j, p = q + 1 ∧ b.Full q j h

variable {b}

theorem Vouched.snoc {trace : List Served} (h : Vouched trace) {p i : ℕ} {e : Served}
    (he : b.Answers p i trace e) : Vouched (trace ++ [e]) := by
  intro k p' i' v r calls hk
  rcases Nat.lt_trichotomy k trace.length with hlt | rfl | hgt
  · rw [List.getElem?_append_left hlt] at hk
    rw [List.take_append_of_le_length (Nat.le_of_lt hlt)]
    exact h k p' i' v r calls hk
  · rw [List.getElem?_concat_length] at hk
    cases hk
    rw [List.take_left]
    exact he.2.2.2
  · rw [List.getElem?_eq_none (by simp; omega)] at hk
    cases hk

theorem Engaged.snoc {p i : ℕ} {trace : List Served} (h : b.Engaged p i trace) {e : Served}
    (he : b.Answers p i trace e) : b.Engaged p (i + 1) (trace ++ [e]) := by
  intro p' i' v hbefore hi hdue
  by_cases hnow : p' = p ∧ i' = i
  · obtain ⟨rfl, rfl⟩ := hnow
    cases e with
    | replayed q k w r calls =>
        obtain ⟨rfl, rfl, rfl, -⟩ := he
        rw [hdue.2.2 k (Nat.le_refl k)]
        exact .inl ⟨r, calls, by simp⟩
    | live q k w off made shown =>
        obtain ⟨rfl, rfl, rfl | hnot⟩ := he
        · exact .inr ⟨w, made, shown, by simp⟩
        · exact absurd hdue (hnot v)
  · rcases h p' i' v (by omega) hi hdue with ⟨r, calls, hmem⟩ | ⟨w, made, shown, hmem⟩
    · exact .inl ⟨r, calls, List.mem_append_left _ hmem⟩
    · exact .inr ⟨w, made, shown, List.mem_append_left _ hmem⟩

/-- The first batches of a pass, along what holds in front of each. -/
theorem batchSteps_keep {p : ℕ} {P : ℕ → Harness → Prop}
    (hkeep : ∀ i h, i < b.batches → P i h → ∃ h' e, b.batchStep p i h = .ok h' ∧ P (i + 1) h' ∧
      h'.trace = h.trace ++ [e] ∧ b.Answers p i h.trace e)
    {h : Harness} (hat : P 0 h) (hv : Vouched h.trace) (he : b.Engaged p 0 h.trace) {i : ℕ}
    (hi : i ≤ b.batches) :
    ∃ h', b.batchSteps p h i = .ok h' ∧ P i h' ∧ Vouched h'.trace ∧ b.Engaged p i h'.trace := by
  induction i with
  | zero => exact ⟨h, rfl, hat, hv, he⟩
  | succ i ih =>
      obtain ⟨h₁, hsteps, hat₁, hv₁, he₁⟩ := ih (by omega)
      obtain ⟨h₂, e, hstep, hat₂, htrace, hans⟩ := hkeep i h₁ hi hat₁
      refine ⟨h₂, by rw [batchSteps, hsteps]; exact hstep, hat₂, ?_, ?_⟩
      · rw [htrace]
        exact hv₁.snoc hans
      · rw [htrace]
        exact he₁.snoc hans

theorem version_mono (p : ℕ) {i j : ℕ} (h : i ≤ j) : b.version p i ≤ b.version p j := by
  induction h with
  | refl => exact Nat.le_refl _
  | step _ ih => exact Nat.le_trans ih (b.version_batch p _)

/-- A pass opens with a template to replay, with one of another version, or with none. -/
theorem openPass_at {passes p : ℕ} (hsteady : b.Steadied passes) (hp : p < passes)
    (hn : 0 < b.batches) {h : Harness} (hbetween : b.Between p h) : b.At p 0 (openPass h) := by
  rcases hbetween with hoff | ⟨hb, hs, hp0⟩ | ⟨q, j, rfl, hf⟩
  · exact .inl hoff
  · have hzero : p = 0 := by omega
    by_cases hoff : b.off h.ledger = true
    · exact .inl hoff
    · refine .inr (.inr (.inl ⟨0, ?_, .inr rfl⟩))
      exact
        { on := Bool.eq_false_iff.mpr hoff
          cursor := rfl
          le := Nat.le_refl 0
          size := congrArg List.length hb
          version := fun hlt => absurd hlt (Nat.lt_irrefl 0)
          template := Template.empty hb fun c hc => (hs c hc).mono (Nat.le_refl _) (Nat.le_refl _)
          reach := by
            intro k r hk
            omega
          start := fun _ _ => rfl
          cause := ⟨fun _ hpos => absurd hpos (by omega), fun hpos => absurd hpos (by omega)⟩ }
  · by_cases hv : b.version (q + 1) 0 = b.version q j
    · have hj : j = 0 := by
        by_contra hne
        obtain ⟨hq, hfirst, hsame, hother⟩ := hf.late (Nat.pos_of_ne_zero hne)
        obtain ⟨q, rfl⟩ : ∃ k, q = k + 1 := ⟨q - 1, by omega⟩
        exact hsteady q j hp (Nat.pos_of_ne_zero hne) hf.lt hfirst hsame hother hv
      subst hj
      have hconst : ∀ k, k < b.batches → b.version q k = b.version q 0 := by
        intro k hk
        have h₁ := b.version_mono q (Nat.zero_le k)
        have h₂ := b.version_pass q k hk
        omega
      refine .inr (.inl ?_)
      exact
        { on := hf.on
          cursor := rfl
          size := hf.size
          template := by
            have hsame : b.Template (openPass h).ledger h.trace 0 (b.version q) :=
              hf.template.congr rfl rfl rfl rfl
            exact
              { hsame with
                record := by
                  intro k r hk
                  have hlt : k < b.batches := by
                    have := (List.getElem?_eq_some_iff.mp hk).1
                    have := hf.size
                    change k < h.ledger.batches.length at *
                    omega
                  have hver : b.version q (0 + k) = (openPass h).ledger.version := by
                    rw [Nat.zero_add, hconst k hlt]
                    exact hf.version.symm
                  have hrecord := hsame.record k r hk
                  rw [hver] at hrecord
                  exact hrecord }
          reach := fun r hget => hf.template.start r rfl hget
          pos := Nat.succ_pos q
          before := fun k hk => (hconst k hk).trans hf.version.symm
          seen := fun k hk => absurd hk (Nat.not_lt_zero k) }
    · refine .inr (.inr (.inr ⟨rfl, ?_⟩))
      have hlt := hf.lt
      exact
        { on := hf.on
          cursor := rfl
          filled := by
            apply List.ne_nil_of_length_pos
            have := hf.size
            change 0 < h.ledger.batches.length
            omega
          version := fun heq => hv (heq.symm.trans hf.version)
          start := rfl
          cause := ⟨fun _ _ => ⟨j, hf.lt, fun heq => hv heq.symm⟩,
            fun hpos => absurd hpos (Nat.lt_irrefl 0)⟩ }

/-- A pass leaves a template from one of its batches on. -/
theorem At.between {p : ℕ} {h : Harness} (hn : 0 < b.batches) (hat : b.At p b.batches h) :
    b.Between (p + 1) { h with ledger := h.ledger.notePassEnd } := by
  rcases hat with hoff | hr | ⟨j, hr, hj⟩ | ⟨hzero, -⟩
  · exact .inl hoff
  · refine .inr (.inr ⟨p, 0, rfl, ?_⟩)
    have hfirst := hr.seen 0 hn
    have hsame : b.Template h.ledger.notePassEnd h.trace 0 fun _ => h.ledger.version :=
      hr.template.congr rfl rfl rfl rfl
    exact
      { on := hr.on
        lt := hn
        size := hr.size
        version := hfirst.symm
        template :=
          { hsame with
            record := by
              intro k r hk
              have hlt : k < b.batches := by
                have := (List.getElem?_eq_some_iff.mp hk).1
                have := hr.size
                change k < h.ledger.batches.length at *
                omega
              have hrecord := hsame.record k r hk
              rw [← hr.seen k hlt] at hrecord
              rw [Nat.zero_add] at hrecord ⊢
              exact hrecord }
        late := fun hpos => absurd hpos (Nat.lt_irrefl 0) }
  · have hlt : j < b.batches := by omega
    exact .inr (.inr ⟨p, j, rfl,
      { on := hr.on
        lt := hlt
        size := hr.size
        version := hr.version hlt
        template := hr.template.congr rfl rfl rfl rfl
        late := hr.cause.late }⟩)
  · omega

theorem Engaged.next {p i : ℕ} {trace : List Served} (h : b.Engaged p i trace)
    (hi : b.batches ≤ i) : b.Engaged (p + 1) 0 trace := by
  intro p' i' v hbefore hi' hdue
  exact h p' i' v (by omega) hi' hdue

/-- One pass. -/
theorem passStep_between {passes p : ℕ} (hsteady : b.Steadied passes) (hp : p < passes)
    {h : Harness} (hbetween : b.Between p h) (hv : Vouched h.trace)
    (he : b.Engaged p 0 h.trace) :
    ∃ h', b.passStep p h = .ok h' ∧ b.Between (p + 1) h' ∧ Vouched h'.trace ∧
      b.Engaged (p + 1) 0 h'.trace := by
  rcases Nat.eq_zero_or_pos b.batches with hn | hn
  · refine ⟨{ openPass h with ledger := (openPass h).ledger.notePassEnd },
      by rw [passStep, hn]; rfl, ?_, hv, he.next (by omega)⟩
    rcases hbetween with hoff | ⟨hb, hs, -⟩ | ⟨q, j, rfl, hf⟩
    · exact .inl hoff
    · exact .inr (.inl ⟨hb, fun c hc => (hs c hc).mono (Nat.le_refl _) (Nat.le_refl _), .inr hn⟩)
    · exact absurd hf.lt (by omega)
  · obtain ⟨h', hsteps, hat, hv', he'⟩ := batchSteps_keep (fun i h hi => batchStep_at hi)
      (openPass_at hsteady hp hn hbetween) hv he (Nat.le_refl b.batches)
    refine ⟨_, by rw [passStep, hsteps]; rfl, hat.between hn, hv', he'.next (Nat.le_refl _)⟩

theorem passStep_off {p : ℕ} {h : Harness} (hoff : b.off h.ledger = true)
    (hv : Vouched h.trace) (he : b.Engaged p 0 h.trace) :
    ∃ h', b.passStep p h = .ok h' ∧ b.off h'.ledger = true ∧ Vouched h'.trace ∧
      b.Engaged (p + 1) 0 h'.trace := by
  obtain ⟨h', hsteps, hat, hv', he'⟩ := batchSteps_keep (p := p)
    (P := fun _ h => b.off h.ledger = true) (fun i h _ => batchStep_off) (h := openPass h) hoff hv
    he (Nat.le_refl b.batches)
  exact ⟨{ h' with ledger := h'.ledger.notePassEnd }, by rw [passStep, hsteps]; rfl, hat, hv',
    he'.next (Nat.le_refl _)⟩

/-- The runs of passes, along what holds between two of them. -/
theorem run_keep {ledger : PassReplay} {passes : ℕ} {P : ℕ → Harness → Prop}
    (hstart : P 0 ⟨ledger, Sequencer.new, []⟩)
    (hkeep : ∀ p h, p < passes → P p h → Vouched h.trace → b.Engaged p 0 h.trace →
      ∃ h', b.passStep p h = .ok h' ∧ P (p + 1) h' ∧ Vouched h'.trace ∧
        b.Engaged (p + 1) 0 h'.trace)
    {p : ℕ} (hp : p ≤ passes) :
    ∃ h, b.run ledger p = .ok h ∧ P p h ∧ Vouched h.trace ∧ b.Engaged p 0 h.trace := by
  induction p with
  | zero =>
      refine ⟨_, rfl, hstart, nofun, ?_⟩
      intro p' i' v hbefore
      omega
  | succ p ih =>
      obtain ⟨h, hrun, hat, hv, he⟩ := ih (by omega)
      obtain ⟨h', hpass, hnext⟩ := hkeep p h (by omega) hat hv he
      exact ⟨h', by rw [run, hrun]; exact hpass, hnext⟩

/-- Two batches of one message in each pass; the first copy of the pass is scanned, the second
one replayed until the master is written in front of its last batch. -/
def rewritten : Bench where
  batches := 2
  bounds := fun i => (i, 1)
  regime := true
  version := fun p i => if 2 * p + i ≤ 2 then 0 else 1
  entries := fun _ i =>
    let frame := makeFrame (SessionId.repeated 65) (i + 1) 1
    [{ bytes := frame
       addr := 64 * i
       feed := 0
       blocks := [(i + 1, 22, frame.length)]
       memo := some ⟨1⟩
       firstSeq := i + 1
       sessLo := fromLeBytes (slice frame 0 8)
       sessHi := fromLeBytes (slice frame 2 10)
       elig := 0 }]
  nowNs := fun p i => 10 * p + i
  wantsSpans := false
  wantsPackedSpans := false
  ladder := none
  version_batch := by
    intro p i
    split_ifs
    all_goals omega
  version_pass := by
    intro p i hi
    split_ifs
    all_goals omega

/-- A version that changes between two passes. -/
def rewrittenBetween : Bench :=
  { rewritten with
    version := fun p _ => if p ≤ 1 then 0 else 1
    version_batch := fun _ _ => Nat.le_refl _
    version_pass := by
      intro p i _
      split_ifs
      all_goals omega }

end Bench

end HftProj.Testkit
